import ChainPropagation.Json.Reader
import ChainPropagation.Json.Writer
import Mathlib.Data.List.TakeWhile

/-!
# Tokens of written values

The reader cuts a text into tokens before it looks at their order.  The writer knows
nothing of tokens, but what it writes for a value is the texts of a list of tokens one
after another (`toList_text`).  That list is cut out again (`cutFrom_written`), if
every number and constant in it is read as itself and is followed by a mark: a word
ends where a mark begins, and nowhere else.

Texts between quotes are read back whatever they contain (`cutFrom_quoted`), and so are
whole numbers of 64 bits (`isWord_int`).
-/

namespace ChainPropagation.Json

/-! ## Folds that may fail -/

section

variable {α β : Type} {step : β → α → Option β} {b next : β}

/-- A fold goes on with what a step leads to. -/
theorem foldlM_cons_of_some {a : α} (h : step b a = some next) (rest : List α) :
    (a :: rest).foldlM step b = rest.foldlM step next := by
  rw [List.foldlM_cons, h]
  rfl

theorem foldlM_append_of_some {front : List α} (h : front.foldlM step b = some next)
    (rest : List α) : (front ++ rest).foldlM step b = rest.foldlM step next := by
  rw [List.foldlM_append, h]
  rfl

end

/-! ## Whole numbers -/

theorem digitsValue_toDigits (n : Nat) : digitsValue (Nat.toDigits 10 n) = n :=
  Nat.ofDigitChars_ten_toDigits

theorem isDigit_of_mem_toDigits {n : Nat} {c : Char} (h : c ∈ Nat.toDigits 10 n) :
    c.isDigit = true :=
  Nat.isDigit_of_mem_toDigits (by decide) (by decide) h

/-- Only 0 is written with a zero in front. -/
theorem eq_zero_of_head?_toDigits {n : Nat} (h : (Nat.toDigits 10 n).head? = some '0') :
    n = 0 := by
  induction n using Nat.base_induction 10 (by decide) with
  | single m hm =>
      rw [Nat.toDigits_of_lt_base hm] at h
      simpa using h
  | digit m k hk hm ih =>
      obtain ⟨c, cs, hfront⟩ := List.exists_cons_of_ne_nil (@Nat.toDigits_ne_nil m 10)
      rw [← Nat.toDigits_append_toDigits (by decide) hm hk, hfront] at h
      rw [hfront] at ih
      have hzero := ih h
      omega

theorem digits?_toDigits (n : Nat) :
    digits? (Nat.toDigits 10 n) = some (Nat.toDigits 10 n, []) := by
  have hall : ∀ c ∈ Nat.toDigits 10 n, c.isDigit = true := fun c hc => isDigit_of_mem_toDigits hc
  have htake : (Nat.toDigits 10 n).takeWhile Char.isDigit = Nat.toDigits 10 n :=
    List.takeWhile_eq_self_iff.2 hall
  have hdrop : (Nat.toDigits 10 n).dropWhile Char.isDigit = [] :=
    List.dropWhile_eq_nil_iff.2 hall
  unfold digits?
  rw [htake, hdrop]
  simp

theorem no_zero_in_front (n : Nat) :
    ¬ (1 < (Nat.toDigits 10 n).length ∧ (Nat.toDigits 10 n).head? = some '0') := by
  rintro ⟨hlong, hfront⟩
  rw [eq_zero_of_head?_toDigits hfront] at hlong
  simp at hlong

theorem number?_toDigits (n : Nat) : number? (Nat.toDigits 10 n) = ofWhole? false n := by
  have hsign : ∀ rest, Nat.toDigits 10 n ≠ '-' :: rest := by
    intro rest hminus
    have hdigit := @isDigit_of_mem_toDigits n '-' (by simp [hminus])
    cases hdigit
  unfold number?
  split
  · rename_i hminus
    split at hminus
    · rename_i hfront
      exact absurd hfront (hsign _)
    · cases hminus
      rw [digits?_toDigits]
      simp [no_zero_in_front, digitsValue_toDigits, exponent?]

theorem number?_neg_toDigits (n : Nat) :
    number? ('-' :: Nat.toDigits 10 n) = ofWhole? true n := by
  unfold number?
  split
  rename_i hminus
  cases hminus
  rw [digits?_toDigits]
  simp [no_zero_in_front, digitsValue_toDigits, exponent?]

/-- The whole numbers that are read as such: the naturals of a machine word, and the
negative numbers of 64 bits. -/
def Whole64 (n : Int) : Prop := -0x8000000000000000 ≤ n ∧ n ≤ 0xffffffffffffffff

theorem toList_toString_ofNat (m : Nat) :
    (toString (Int.ofNat m)).toList = Nat.toDigits 10 m :=
  Nat.toList_repr

theorem toList_toString_negSucc (m : Nat) :
    (toString (Int.negSucc m)).toList = '-' :: Nat.toDigits 10 (m + 1) := by
  show ("-" ++ Nat.repr (m + 1)).toList = _
  rw [String.toList_append, Nat.toList_repr]
  rfl

/-- A whole number is written with digits and a minus. -/
theorem minus_or_isDigit_of_mem {n : Int} {c : Char} (h : c ∈ (toString n).toList) :
    c = '-' ∨ c.isDigit = true := by
  cases n with
  | ofNat m =>
      rw [toList_toString_ofNat] at h
      exact .inr (isDigit_of_mem_toDigits h)
  | negSucc m =>
      rw [toList_toString_negSucc] at h
      rcases List.mem_cons.1 h with rfl | hdigit
      · exact .inl rfl
      · exact .inr (isDigit_of_mem_toDigits hdigit)

theorem number?_int {n : Int} (h : Whole64 n) : number? (toString n).toList = some (.int n) := by
  obtain ⟨hlow, hhigh⟩ := h
  cases n with
  | ofNat m =>
      have hword : m < 1 <<< 64 := Nat.lt_succ_of_le (Int.ofNat_le.1 hhigh)
      rw [toList_toString_ofNat, number?_toDigits, ofWhole?, if_pos (by simpa using hword)]
      rfl
  | negSucc m =>
      have hword : m + 1 ≤ 1 <<< 63 := by
        show m + 1 ≤ 0x8000000000000000
        omega
      rw [toList_toString_negSucc, number?_neg_toDigits, ofWhole?, if_pos (by simpa using hword)]
      rfl

/-! ## Tokens of a value -/

mutual

/-- The tokens that a value is written as. -/
def tokens : Json → List Token
  | .null => [.constant .null]
  | .bool b => [.constant (.bool b)]
  | .int n => [.constant (.int n)]
  | .real x => [.constant (.real x)]
  | .str s => [.text s]
  | .arr items => .openArray :: (itemTokens items ++ [.closeArray])
  | .obj members => .openObject :: (memberTokens members ++ [.closeObject])

/-- The tokens of entries, a comma between any two. -/
def itemTokens : List Json → List Token
  | [] => []
  | [j] => tokens j
  | j :: k :: rest => tokens j ++ .comma :: itemTokens (k :: rest)

/-- The tokens of members, a comma between any two. -/
def memberTokens : List (String × Json) → List Token
  | [] => []
  | [(name, j)] => .text name :: .colon :: tokens j
  | (name, j) :: m :: rest =>
    .text name :: .colon :: (tokens j ++ .comma :: memberTokens (m :: rest))

end

/-- How a token is written. -/
def Token.written : Token → List Char
  | .openArray => ['[']
  | .closeArray => [']']
  | .openObject => ['\x7b']
  | .closeObject => ['\x7d']
  | .comma => [',']
  | .colon => [':']
  | .text s => (quoted s).toList
  | .constant j => j.text.toList

mutual

theorem toList_appendTo (acc : String) :
    ∀ j, (appendTo acc j).toList = acc.toList ++ (tokens j).flatMap Token.written
  | .null => by simp [appendTo, tokens, Token.written, text]
  | .bool b => by cases b <;> simp [appendTo, tokens, Token.written, text]
  | .int n => by simp [appendTo, tokens, Token.written, text]
  | .real x => by simp [appendTo, tokens, Token.written, text]
  | .str s => by simp [appendTo, tokens, Token.written]
  | .arr items => by
      have hitems := toList_appendItems (acc.push '[') items
      simp [appendTo, tokens, Token.written, hitems]
  | .obj members => by
      have hmembers := toList_appendMembers (acc.push '\x7b') members
      simp [appendTo, tokens, Token.written, hmembers]

theorem toList_appendItems (acc : String) :
    ∀ items, (appendItems acc items).toList = acc.toList ++ (itemTokens items).flatMap Token.written
  | [] => by simp [appendItems, itemTokens]
  | [j] => by simp [appendItems, itemTokens, toList_appendTo acc j]
  | j :: k :: rest => by
      have hothers := toList_appendItems ((appendTo acc j).push ',') (k :: rest)
      simp [appendItems, itemTokens, Token.written, hothers, toList_appendTo acc j]

theorem toList_appendMembers (acc : String) :
    ∀ members, (appendMembers acc members).toList =
      acc.toList ++ (memberTokens members).flatMap Token.written
  | [] => by simp [appendMembers, memberTokens]
  | [(name, j)] => by
      have hvalue := toList_appendTo (acc ++ quoted name ++ ":") j
      simp [appendMembers, memberTokens, Token.written, hvalue]
  | (name, j) :: m :: rest => by
      have hvalue := toList_appendTo (acc ++ quoted name ++ ":") j
      have hothers := toList_appendMembers
        ((appendTo (acc ++ quoted name ++ ":") j).push ',') (m :: rest)
      simp [appendMembers, memberTokens, Token.written, hothers, hvalue]

end

/-- A value is written as its tokens, one after another. -/
theorem toList_text (j : Json) : j.text.toList = (tokens j).flatMap Token.written :=
  toList_appendTo "" j

/-! ## Cutting on -/

/-- The tokens in order, if the text may end here. -/
def Cut.close (cut : Cut) : Option (List Token) :=
  match cut.place with
  | .between => some cut.tokens.reverse
  | .inWord read => (word read).map fun token => (token :: cut.tokens).reverse
  | _ => none

/-- All tokens of a text, of which some have been cut off, last one first, and the rest
is to be read. -/
def cutFrom (done : List Token) (rest : List Char) : Option (List Token) :=
  (rest.foldlM Cut.step { tokens := done, place := .between }).bind Cut.close

theorem tokens?_eq_cutFrom (s : String) : tokens? s = cutFrom [] s.toList := by
  unfold tokens? cutFrom Cut.close
  cases s.toList.foldlM Cut.step { tokens := [], place := .between } with
  | none => rfl
  | some cut =>
      obtain ⟨done, place⟩ := cut
      cases place with
      | inWord read => cases h : word read <;> simp [h]
      | _ => rfl

theorem cutFrom_nil (done : List Token) : cutFrom done [] = some done.reverse := rfl

theorem cutFrom_mark {c : Char} {token : Token} (hmark : mark? c = some token)
    (done : List Token) (rest : List Char) :
    cutFrom done (c :: rest) = cutFrom (token :: done) rest := by
  have hstep : Cut.step { tokens := done, place := .between } c =
      some { tokens := token :: done, place := .between } := by
    simp [Cut.step, hmark]
  unfold cutFrom
  rw [foldlM_cons_of_some hstep]

/-! ## Texts between quotes -/

theorem hexDigit?_hexDigit : ∀ d < 16, hexDigit? (hexDigit d) = some d := by decide

/-- An escaped unit of 16 bits is read as its number. -/
theorem foldlM_step_hexText {n : Nat} (hn : n < 0x10000) (done : List Token) (read : List Char)
    (half : Option Nat) : (hexText n 4).toList.foldlM Cut.step
      { tokens := done, place := .inEscape read half [] } =
      (afterUnit read half n).map fun place => { tokens := done, place } := by
  have htext : (hexText n 4).toList = [hexDigit (n / 16 / 16 / 16 % 16),
      hexDigit (n / 16 / 16 % 16), hexDigit (n / 16 % 16), hexDigit (n % 16)] := by
    simp [hexText]
  have hvalue : 16 * (16 * (16 * (n / 16 / 16 / 16 % 16) + n / 16 / 16 % 16) + n / 16 % 16) +
      n % 16 = n := by
    omega
  rw [htext]
  cases hplace : afterUnit read half n <;>
    simp [Cut.step, hexDigit?_hexDigit _ (Nat.mod_lt _ (by decide)), hvalue, hplace]

/-- Between quotes every character is read as it was written. -/
theorem foldlM_step_escapedChar (c : Char) (done : List Token) (read : List Char) :
    (escapedChar c).toList.foldlM Cut.step { tokens := done, place := .inText read none } =
      some { tokens := done, place := .inText (c :: read) none } := by
  unfold escapedChar
  split
  · rename_i hquote
    cases eq_of_beq hquote
    rfl
  split
  · rename_i hbackslash
    cases eq_of_beq hbackslash
    rfl
  split
  · rename_i hcontrol
    have hunit : c.toNat < 0x10000 := by omega
    have hsingle : c.toNat < 0xd800 ∨ 0xe000 ≤ c.toNat := by omega
    have hbegin : ("\\u" : String).toList.foldlM Cut.step
        { tokens := done, place := .inText read none } =
        some { tokens := done, place := .inEscape read none [] } := rfl
    rw [String.toList_append, foldlM_append_of_some hbegin, foldlM_step_hexText hunit, afterUnit,
      if_pos hsingle, Char.ofNat_toNat]
    rfl
  · rename_i hquote hbackslash hcontrol
    simp [Cut.step, hquote, hbackslash, hcontrol]

/-- The characters of a text as they are written between quotes. -/
def escaped (cs : List Char) : List Char := cs.flatMap fun c => (escapedChar c).toList

theorem toList_foldl_escapedChar (cs : List Char) (acc : String) :
    (cs.foldl (fun acc c => acc ++ escapedChar c) acc).toList = acc.toList ++ escaped cs := by
  induction cs generalizing acc with
  | nil => simp [escaped]
  | cons c cs ih =>
      rw [List.foldl_cons, ih]
      simp [escaped]

theorem toList_quoted (s : String) : (quoted s).toList = '"' :: escaped s.toList ++ ['"'] := by
  rw [quoted, String.toList_push, toList_foldl_escapedChar]
  rfl

theorem foldlM_step_escaped (cs : List Char) (done : List Token) (read : List Char) :
    (escaped cs).foldlM Cut.step
      { tokens := done, place := .inText read none } =
      some { tokens := done, place := .inText (cs.reverse ++ read) none } := by
  induction cs generalizing read with
  | nil => rfl
  | cons c cs ih =>
      rw [escaped, List.flatMap_cons,
        foldlM_append_of_some (foldlM_step_escapedChar c done read), ← escaped, ih]
      simp

/-- A text between quotes is cut off as it is, whatever is in it. -/
theorem cutFrom_quoted (s : String) (done : List Token) (rest : List Char) :
    cutFrom done ((quoted s).toList ++ rest) = cutFrom (.text s :: done) rest := by
  have hopen : Cut.step { tokens := done, place := .between } '"' =
      some { tokens := done, place := .inText [] none } := rfl
  have hclose : Cut.step { tokens := done, place := .inText (s.toList.reverse ++ []) none } '"' =
      some { tokens := .text s :: done, place := .between } := by
    simp [Cut.step]
  unfold cutFrom
  rw [toList_quoted, List.append_assoc, List.cons_append, foldlM_cons_of_some hopen,
    foldlM_append_of_some (foldlM_step_escaped s.toList done []), List.singleton_append,
    foldlM_cons_of_some hclose]

/-! ## Words -/

/-- A character that neither ends a word nor is out of place in it. -/
structure WordChar (c : Char) : Prop where
  not_mark : mark? c = none
  not_blank : isBlank c = false
  not_quote : c ≠ '"'

theorem WordChar.step {c : Char} (h : WordChar c) (done : List Token) (read : List Char) :
    Cut.step { tokens := done, place := .inWord read } c =
      some { tokens := done, place := .inWord (c :: read) } := by
  simp [Cut.step, h.not_mark, h.not_blank, h.not_quote]

theorem WordChar.begin {c : Char} (h : WordChar c) (done : List Token) :
    Cut.step { tokens := done, place := .between } c =
      some { tokens := done, place := .inWord [c] } := by
  simp [Cut.step, h.not_mark, h.not_blank, h.not_quote]

theorem foldlM_step_word {cs : List Char} (hchars : ∀ c ∈ cs, WordChar c) (done : List Token)
    (read : List Char) : cs.foldlM Cut.step { tokens := done, place := .inWord read } =
      some { tokens := done, place := .inWord (cs.reverse ++ read) } := by
  induction cs generalizing read with
  | nil => rfl
  | cons c cs ih =>
      rw [foldlM_cons_of_some ((hchars c List.mem_cons_self).step done read),
        ih fun other hother => hchars other (List.mem_cons_of_mem c hother)]
      simp

/-- What ends a word: a mark, or the end of the text. -/
def EndsWord : List Char → Prop
  | [] => True
  | c :: _ => ∃ token, mark? c = some token

/-- A word is cut off where a mark follows it. -/
theorem cutFrom_word {cs rest : List Char} {token : Token} (hsome : cs ≠ [])
    (hchars : ∀ c ∈ cs, WordChar c) (hword : word cs.reverse = some token)
    (hends : EndsWord rest) (done : List Token) :
    cutFrom done (cs ++ rest) = cutFrom (token :: done) rest := by
  have hread : cs.foldlM Cut.step { tokens := done, place := .between } =
      some { tokens := done, place := .inWord cs.reverse } := by
    obtain ⟨c, others, rfl⟩ := List.exists_cons_of_ne_nil hsome
    rw [foldlM_cons_of_some ((hchars c List.mem_cons_self).begin done),
      foldlM_step_word fun other hother => hchars other (List.mem_cons_of_mem c hother)]
    simp
  unfold cutFrom
  rw [foldlM_append_of_some hread]
  cases rest with
  | nil => simp [Cut.close, hword]
  | cons mark rest =>
      obtain ⟨next, hmark⟩ := hends
      have hend : Cut.step { tokens := done, place := .inWord cs.reverse } mark =
          Cut.step { tokens := token :: done, place := .between } mark := by
        simp only [Cut.step, hmark, hword]
        rfl
      rw [List.foldlM_cons, List.foldlM_cons, hend]

theorem wordChar_of_isAlphanum {c : Char} (h : c.isAlphanum = true) : WordChar c where
  not_mark := by
    unfold mark?
    split
    all_goals first | rfl | cases h
  not_blank := by
    simp only [isBlank, Bool.or_eq_false_iff, beq_eq_false_iff_ne]
    refine ⟨⟨⟨?_, ?_⟩, ?_⟩, ?_⟩ <;> (rintro rfl; cases h)
  not_quote := by
    rintro rfl
    cases h

/-- A value whose text is a word that is read as it. -/
structure IsWord (j : Json) : Prop where
  not_empty : j.text.toList ≠ []
  chars : ∀ c ∈ j.text.toList, WordChar c
  reads : word j.text.toList.reverse = some (.constant j)

theorem isWord_null : IsWord .null where
  not_empty := by simp [text, appendTo]
  chars c hc := by
    have hletters : ['n', 'u', 'l', 'l'].all Char.isAlphanum = true := rfl
    exact wordChar_of_isAlphanum (List.all_eq_true.1 hletters c hc)
  reads := by simp [text, appendTo, word]

theorem isWord_bool (b : Bool) : IsWord (.bool b) where
  not_empty := by cases b <;> simp [text, appendTo]
  chars c hc := by
    have htrue : ['t', 'r', 'u', 'e'].all Char.isAlphanum = true := rfl
    have hfalse : ['f', 'a', 'l', 's', 'e'].all Char.isAlphanum = true := rfl
    cases b with
    | true => exact wordChar_of_isAlphanum (List.all_eq_true.1 htrue c hc)
    | false => exact wordChar_of_isAlphanum (List.all_eq_true.1 hfalse c hc)
  reads := by cases b <;> simp [text, appendTo, word]

/-- No number is a word that begins with a letter. -/
theorem toString_ne_ofList {n : Int} {c : Char} (cs : List Char) (hminus : c ≠ '-')
    (hdigit : c.isDigit = false) : String.ofList (toString n).toList ≠ String.ofList (c :: cs) := by
  intro hsame
  have hlist := String.ofList_injective hsame
  rcases minus_or_isDigit_of_mem (hlist ▸ List.mem_cons_self : c ∈ (toString n).toList) with hc | hc
  · exact hminus hc
  · rw [hdigit] at hc
    cases hc

/-- Whole numbers of 64 bits are words. -/
theorem isWord_int {n : Int} (h : Whole64 n) : IsWord (.int n) := by
  have htext : (text (.int n)).toList = (toString n).toList := by simp [text, appendTo]
  refine ⟨?_, ?_, ?_⟩
  · rw [htext]
    intro hempty
    have hnumber := number?_int h
    rw [hempty] at hnumber
    cases hnumber
  · rw [htext]
    intro c hc
    rcases minus_or_isDigit_of_mem hc with rfl | hdigit
    · exact ⟨rfl, rfl, by decide⟩
    · exact wordChar_of_isAlphanum (by simp [Char.isAlphanum, hdigit])
  · rw [htext, word, List.reverse_reverse]
    split
    · rename_i hnull
      exact absurd hnull (toString_ne_ofList ['u', 'l', 'l'] (by decide) rfl)
    · rename_i htrue
      exact absurd htrue (toString_ne_ofList ['r', 'u', 'e'] (by decide) rfl)
    · rename_i hfalse
      exact absurd hfalse (toString_ne_ofList ['a', 'l', 's', 'e'] (by decide) rfl)
    · rw [number?_int h]
      rfl

/-! ## Tokens one after another -/

/-- Tokens that are cut out of their text as they are: marks and texts always, a word
if what follows it begins with a mark. -/
inductive Legible : List Token → Prop where
  | nil : Legible []
  | mark {c : Char} {token : Token} {rest : List Token} (marks : mark? c = some token)
      (legible : Legible rest) : Legible (token :: rest)
  | text (s : String) {rest : List Token} (legible : Legible rest) : Legible (.text s :: rest)
  | word {j : Json} {rest : List Token} (isWord : IsWord j)
      (ends : EndsWord (rest.flatMap Token.written)) (legible : Legible rest) :
      Legible (.constant j :: rest)

theorem written_of_mark? {c : Char} {token : Token} (h : mark? c = some token) :
    token.written = [c] := by
  unfold mark? at h
  split at h <;> cases h <;> rfl

theorem cutFrom_written {tokens : List Token} (h : Legible tokens) (done : List Token) :
    cutFrom done (tokens.flatMap Token.written) = some (done.reverse ++ tokens) := by
  induction h generalizing done with
  | nil => simp [cutFrom_nil]
  | mark marks _ ih =>
      rw [List.flatMap_cons, written_of_mark? marks, List.singleton_append, cutFrom_mark marks, ih]
      simp
  | text s _ ih =>
      rw [List.flatMap_cons, Token.written, cutFrom_quoted, ih]
      simp
  | word isWord ends _ ih =>
      rw [List.flatMap_cons, Token.written,
        cutFrom_word isWord.not_empty isWord.chars isWord.reads ends, ih]
      simp

end ChainPropagation.Json
