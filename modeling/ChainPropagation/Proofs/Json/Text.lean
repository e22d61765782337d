import ChainPropagation.Proofs.Json.Tokens

/-!
# Text is read back

What is written of a value reads as that value, if it has no doubles in it, its whole
numbers have 64 bits and its brackets are not nested too deep (`ofText?_text`).  The
text is cut into the tokens of the value (`tokens?_text`).  The reader then puts the
value, wherever its tokens come, where it belongs, and is in the same state as if they
had been one token (`Puts`); for the values in an array or an object this is an
induction on the list of them, with those before it on the stack.
-/

namespace ChainPropagation.Json

variable {levels : Nat}

/-- A value without doubles, with whole numbers of 64 bits, and with brackets nested at
most `levels` deep. -/
inductive Plain : (levels : Nat) → Json → Prop where
  | null {levels : Nat} : Plain levels .null
  | bool {levels : Nat} (b : Bool) : Plain levels (.bool b)
  | int {levels : Nat} {n : Int} (whole : Whole64 n) : Plain levels (.int n)
  | str {levels : Nat} (s : String) : Plain levels (.str s)
  | arr {levels : Nat} {items : List Json} (plain : ∀ j ∈ items, Plain levels j) :
      Plain (levels + 1) (.arr items)
  | obj {levels : Nat} {members : List (String × Json)}
      (plain : ∀ member ∈ members, Plain levels member.2) : Plain (levels + 1) (.obj members)

/-! ## The tokens are cut out -/

/-- Nothing, or tokens whose text begins with a mark. -/
abbrev Closes (rest : List Token) : Prop := EndsWord (rest.flatMap Token.written)

/-- The tokens of a value may stand before whatever may follow it. -/
def Leads (tokens : List Token) : Prop :=
  ∀ rest, Closes rest → Legible rest → Legible (tokens ++ rest)

theorem closes_cons {c : Char} {token : Token} (h : mark? c = some token) (rest : List Token) :
    Closes (token :: rest) := by
  unfold Closes
  rw [List.flatMap_cons, written_of_mark? h]
  exact ⟨token, h⟩

theorem leads_itemTokens {items : List Json} (h : ∀ j ∈ items, Leads (tokens j)) :
    ∀ rest, Closes rest → Legible rest → Legible (itemTokens items ++ rest) := by
  induction items with
  | nil => exact fun rest _ hrest => hrest
  | cons j items ih =>
      have hfirst := h j List.mem_cons_self
      cases items with
      | nil => exact hfirst
      | cons k items =>
          intro rest hcloses hrest
          have hothers := ih (fun i hi => h i (List.mem_cons_of_mem j hi)) rest hcloses hrest
          have hcomma : mark? ',' = some Token.comma := rfl
          simp only [itemTokens, List.append_assoc, List.cons_append]
          exact hfirst _ (closes_cons hcomma _) (.mark hcomma hothers)

theorem leads_memberTokens {members : List (String × Json)}
    (h : ∀ member ∈ members, Leads (tokens member.2)) :
    ∀ rest, Closes rest → Legible rest → Legible (memberTokens members ++ rest) := by
  have hcolon : mark? ':' = some Token.colon := rfl
  induction members with
  | nil => exact fun rest _ hrest => hrest
  | cons member members ih =>
      obtain ⟨name, j⟩ := member
      have hfirst : Leads (tokens j) := h (name, j) List.mem_cons_self
      intro rest hcloses hrest
      cases members with
      | nil => exact .text name (.mark hcolon (hfirst rest hcloses hrest))
      | cons other members =>
          have hothers := ih (fun m hm => h m (List.mem_cons_of_mem _ hm)) rest hcloses hrest
          have hcomma : mark? ',' = some Token.comma := rfl
          simp only [memberTokens, List.append_assoc, List.cons_append]
          exact .text name (.mark hcolon (hfirst _ (closes_cons hcomma _) (.mark hcomma hothers)))

theorem Plain.leads {j : Json} (h : Plain levels j) : Leads (tokens j) := by
  induction h with
  | null => exact fun rest hcloses hrest => .word isWord_null hcloses hrest
  | bool b => exact fun rest hcloses hrest => .word (isWord_bool b) hcloses hrest
  | int whole => exact fun rest hcloses hrest => .word (isWord_int whole) hcloses hrest
  | str s => exact fun rest _ hrest => .text s hrest
  | arr _ ih =>
      intro rest hcloses hrest
      have hend : mark? ']' = some Token.closeArray := rfl
      have hitems := leads_itemTokens ih _ (closes_cons hend rest) (.mark hend hrest)
      have hbegin : mark? '[' = some Token.openArray := rfl
      simpa [tokens] using Legible.mark hbegin hitems
  | obj _ ih =>
      intro rest hcloses hrest
      have hend : mark? '\x7d' = some Token.closeObject := rfl
      have hmembers := leads_memberTokens ih _ (closes_cons hend rest) (.mark hend hrest)
      have hbegin : mark? '\x7b' = some Token.openObject := rfl
      simpa [tokens] using Legible.mark hbegin hmembers

/-- The text of a value is cut into its tokens. -/
theorem tokens?_text {j : Json} (h : Plain levels j) :
    tokens? j.text = some (tokens j) := by
  have hlegible := h.leads [] trivial .nil
  rw [List.append_nil] at hlegible
  rw [tokens?_eq_cutFrom, toList_text, cutFrom_written hlegible]
  rfl

/-! ## The value is put together -/

/-- Where a value may begin, its tokens put it in its place; as many brackets as
`levels` may be opened for it. -/
def Puts (levels : Nat) (j : Json) : Prop :=
  ∀ (p : Parse) (rest : List Token), p.wantsValue = true →
    p.brackets.length + levels ≤ depthLimit →
    (tokens j ++ rest).foldlM Parse.step p = rest.foldlM Parse.step (p.put p.brackets j)

theorem puts_constant {j : Json} (h : tokens j = [.constant j]) : Puts levels j := by
  intro p rest hwants _
  rw [h, List.singleton_append, List.foldlM_cons]
  simp [Parse.step, hwants]

theorem puts_str (s : String) : Puts levels (.str s) := by
  intro p rest hwants _
  rw [tokens, List.singleton_append, List.foldlM_cons]
  simp [Parse.step, hwants]

/-- The entries of an array, on top of those before them. -/
theorem puts_itemTokens {items : List Json} (hsome : items ≠ [])
    (h : ∀ j ∈ items, Puts levels j) (rest : List Token) (outer : List Bracket)
    (hdepth : outer.length + 1 + levels ≤ depthLimit) :
    ∀ (p : Parse) (before : List Json), p.brackets = .array before :: outer →
      p.wantsValue = true →
      (itemTokens items ++ rest).foldlM Parse.step p = rest.foldlM Parse.step
        { p with
          brackets := .array (items.reverse ++ before) :: outer
          expected := .commaOrEnd } := by
  induction items with
  | nil => exact absurd rfl hsome
  | cons j items ih =>
      intro p before hbrackets hwants
      have hfirst := h j List.mem_cons_self p
      have hdepth' : p.brackets.length + levels ≤ depthLimit := by
        rw [hbrackets]
        exact hdepth
      cases items with
      | nil =>
          rw [itemTokens, hfirst rest hwants hdepth', hbrackets]
          rfl
      | cons k items =>
          have hothers := ih (List.cons_ne_nil k items) fun i hi => h i (List.mem_cons_of_mem j hi)
          have hcomma : Parse.step (p.put (.array before :: outer) j) .comma =
              some { p with brackets := .array (j :: before) :: outer, expected := .value } := rfl
          rw [itemTokens, List.append_assoc, hfirst _ hwants hdepth', hbrackets, List.cons_append,
            foldlM_cons_of_some hcomma, hothers _ (j :: before) rfl rfl]
          simp

/-- One member of an object: its name waits for its value. -/
theorem puts_member {name : String} {j : Json} (h : Puts levels j) (rest : List Token)
    {outer : List Bracket} (hdepth : outer.length + 1 + levels ≤ depthLimit) {p : Parse}
    {before : List (String × Json)} {pending : String}
    (hbrackets : p.brackets = .object before pending :: outer)
    (hexpected : p.expected = .name ∨ p.expected = .nameOrEnd) :
    (.text name :: .colon :: (tokens j ++ rest)).foldlM Parse.step p = rest.foldlM Parse.step
      { p with
        brackets := .object ((name, j) :: before) "" :: outer
        expected := .commaOrEnd } := by
  have hname : Parse.step p (.text name) =
      some { p with brackets := .object before name :: outer, expected := .colon } := by
    rcases hexpected with hname | hname <;>
      simp [Parse.step, Parse.wantsValue, hname, hbrackets]
  have hcolon : Parse.step
      { p with brackets := .object before name :: outer, expected := .colon } .colon =
      some { p with brackets := .object before name :: outer, expected := .value } := rfl
  rw [foldlM_cons_of_some hname, foldlM_cons_of_some hcolon]
  exact h _ rest rfl hdepth

/-- The members of an object, on top of those before them. -/
theorem puts_memberTokens {members : List (String × Json)} (hsome : members ≠ [])
    (h : ∀ member ∈ members, Puts levels member.2) (rest : List Token) (outer : List Bracket)
    (hdepth : outer.length + 1 + levels ≤ depthLimit) :
    ∀ (p : Parse) (before : List (String × Json)) (pending : String),
      p.brackets = .object before pending :: outer → p.expected = .name ∨ p.expected = .nameOrEnd →
      (memberTokens members ++ rest).foldlM Parse.step p = rest.foldlM Parse.step
        { p with
          brackets := .object (members.reverse ++ before) "" :: outer
          expected := .commaOrEnd } := by
  induction members with
  | nil => exact absurd rfl hsome
  | cons member members ih =>
      obtain ⟨name, j⟩ := member
      intro p before pending hbrackets hexpected
      have hfirst : Puts levels j := h (name, j) List.mem_cons_self
      cases members with
      | nil => exact puts_member hfirst rest hdepth hbrackets hexpected
      | cons other members =>
          have hothers := ih (List.cons_ne_nil other members) fun m hm =>
            h m (List.mem_cons_of_mem _ hm)
          have hcomma : Parse.step
              { p with
                brackets := .object ((name, j) :: before) "" :: outer
                expected := .commaOrEnd } .comma =
              some { p with
                brackets := .object ((name, j) :: before) "" :: outer
                expected := .name } := rfl
          rw [memberTokens, List.cons_append, List.cons_append, List.append_assoc,
            puts_member hfirst _ hdepth hbrackets hexpected, List.cons_append,
            foldlM_cons_of_some hcomma, hothers _ ((name, j) :: before) "" rfl (.inl rfl)]
          simp

theorem puts_arr {items : List Json} (h : ∀ j ∈ items, Puts levels j) :
    Puts (levels + 1) (.arr items) := by
  intro p rest hwants hdepth
  have hdepth' : p.brackets.length + 1 + levels ≤ depthLimit := by omega
  have hlt : p.brackets.length < depthLimit := by omega
  have hopen : Parse.step p .openArray =
      some { p with brackets := .array [] :: p.brackets, expected := .valueOrEnd } := by
    simp [Parse.step, Parse.wantsBracket, hwants, hlt]
  rw [tokens, List.cons_append, List.append_assoc, foldlM_cons_of_some hopen]
  by_cases hsome : items = []
  · subst hsome
    rfl
  · have hclose : Parse.step
        { p with brackets := .array items.reverse :: p.brackets, expected := .commaOrEnd }
        .closeArray = some (p.put p.brackets (.arr items.reverse.reverse)) := rfl
    rw [puts_itemTokens hsome h _ p.brackets hdepth' _ [] rfl rfl, List.append_nil,
      List.singleton_append, foldlM_cons_of_some hclose, List.reverse_reverse]

theorem puts_obj {members : List (String × Json)} (h : ∀ member ∈ members, Puts levels member.2) :
    Puts (levels + 1) (.obj members) := by
  intro p rest hwants hdepth
  have hdepth' : p.brackets.length + 1 + levels ≤ depthLimit := by omega
  have hlt : p.brackets.length < depthLimit := by omega
  have hopen : Parse.step p .openObject =
      some { p with brackets := .object [] "" :: p.brackets, expected := .nameOrEnd } := by
    simp [Parse.step, Parse.wantsBracket, hwants, hlt]
  rw [tokens, List.cons_append, List.append_assoc, foldlM_cons_of_some hopen]
  by_cases hsome : members = []
  · subst hsome
    rfl
  · have hclose : Parse.step
        { p with brackets := .object members.reverse "" :: p.brackets, expected := .commaOrEnd }
        .closeObject = some (p.put p.brackets (.obj members.reverse.reverse)) := rfl
    rw [puts_memberTokens hsome h _ p.brackets hdepth' _ [] "" rfl (.inr rfl), List.append_nil,
      List.singleton_append, foldlM_cons_of_some hclose, List.reverse_reverse]

theorem Plain.puts {j : Json} (h : Plain levels j) : Puts levels j := by
  induction h with
  | null => exact puts_constant rfl
  | bool b => exact puts_constant rfl
  | int whole => exact puts_constant rfl
  | str s => exact puts_str s
  | arr _ ih => exact puts_arr ih
  | obj _ ih => exact puts_obj ih

/-- What is written of a plain value is read as that value. -/
theorem ofText?_text {j : Json} (h : Plain depthLimit j) : ofText? j.text = some j := by
  have hputs := h.puts { brackets := [], expected := .value, result := none } [] rfl (by decide)
  rw [List.append_nil] at hputs
  unfold ofText?
  rw [tokens?_text h]
  show (do let parse ← (tokens j).foldlM Parse.step _; _) = _
  rw [hputs]
  rfl

end ChainPropagation.Json
