import Mathlib.Data.List.Induction
import ChainPropagation.Incumbent

/-!
# The first minimum

Schedules are offered to an incumbent one after another.  Its three fields stay in
step with what has been offered (`Incumbent.Keeps`): the bound is the least number
of messages, the best schedule is the first one with so many, and the counter says
how often an offer went below all before it.  An offer is accepted in just those
cases (`Keeps.improvedBy_eq`), so that a tie never replaces anything.

The largest machine word is the bound of an incumbent without a schedule.  No list of
messages is that long, and as each improvement lowers the bound, the counter does not
get past a word either.

Main result: `offers_keep_first_minimum`.
-/

namespace ChainPropagation

/-! ## Offers -/

/-- Whether the offer at a place has fewer messages than all offers before it. -/
def undercuts (offers : List Schedule) (place : Nat) : Bool :=
  offers[place]?.any fun s => (offers.take place).all fun earlier => s.cost < earlier.cost

/-- Later offers have nothing to do with it. -/
theorem undercuts_concat_of_lt {offers : List Schedule} {place : Nat} (h : place < offers.length)
    (s : Schedule) : undercuts (offers ++ [s]) place = undercuts offers place := by
  rw [undercuts, undercuts, List.getElem?_append_left h, List.take_append_of_le_length (by omega)]

theorem undercuts_concat (offers : List Schedule) (s : Schedule) :
    undercuts (offers ++ [s]) offers.length = offers.all fun earlier => s.cost < earlier.cost := by
  rw [undercuts, List.getElem?_concat_length, List.take_left]
  rfl

namespace Incumbent

/-- All answers, and the incumbent after the last one. -/
def offerAll (offers : List Schedule) : List Bool × Incumbent :=
  offers.foldl (fun now s => (now.1 ++ [(now.2.offer s).1], (now.2.offer s).2)) ([], fresh)

theorem offerAll_concat (offers : List Schedule) (s : Schedule) :
    offerAll (offers ++ [s]) = ((offerAll offers).1 ++ [(offerAll offers).2.improvedBy s],
      (offerAll offers).2.consider s) := by
  simp only [offerAll, List.foldl_append, List.foldl_cons, List.foldl_nil, offer_eq]

/-! ## What an incumbent keeps -/

/-- The fields of an incumbent after some offers. -/
structure Keeps (offers : List Schedule) (i : Incumbent) : Prop where
  bound_le : ∀ s ∈ offers, i.bound ≤ s.cost
  attained : (offers = [] ∧ i.bound = wordLimit - 1) ∨ ∃ s ∈ offers, s.cost = i.bound
  best_eq : i.best = offers.find? (·.cost == i.bound)
  improvements_eq : i.improvements = (List.range offers.length).countP (undercuts offers)
  counted : i.improvements + i.bound < wordLimit

namespace Keeps

variable {offers : List Schedule} {i : Incumbent} {s : Schedule}

theorem fresh : Keeps [] fresh where
  bound_le := nofun
  attained := .inl ⟨rfl, rfl⟩
  best_eq := rfl
  improvements_eq := rfl
  counted := by decide

/-- The bound is the least number of messages, or the largest word. -/
theorem bound_eq (h : Keeps offers i) :
    i.bound = (offers.map Schedule.cost).min?.getD (wordLimit - 1) := by
  rcases h.attained with ⟨rfl, hlargest⟩ | ⟨s, hs, hcost⟩
  · exact hlargest
  · have hleast : (offers.map Schedule.cost).min? = some i.bound := by
      rw [List.min?_eq_some_iff]
      refine ⟨List.mem_map.2 ⟨s, hs, hcost⟩, fun count hcount => ?_⟩
      obtain ⟨other, hother, rfl⟩ := List.mem_map.1 hcount
      exact h.bound_le other hother
    rw [hleast]
    rfl

/-- A schedule is better than the best so far if it has fewer messages than each
schedule that was offered. -/
theorem improvedBy_eq (h : Keeps offers i) (hs : s.cost < wordLimit - 1) :
    i.improvedBy s = offers.all fun earlier => s.cost < earlier.cost := by
  rw [Bool.eq_iff_iff, improvedBy, decide_eq_true_eq, List.all_eq_true]
  simp only [decide_eq_true_eq]
  constructor
  · intro hbelow earlier hearlier
    exact Nat.lt_of_lt_of_le hbelow (h.bound_le earlier hearlier)
  · intro hall
    rcases h.attained with ⟨_, hlargest⟩ | ⟨least, hleast, hcost⟩
    · rw [hlargest]
      exact hs
    · rw [← hcost]
      exact hall least hleast

/-- One more offer to count, if it undercuts the others. -/
theorem countP_undercuts_concat (offers : List Schedule) (s : Schedule) :
    (List.range (offers ++ [s]).length).countP (undercuts (offers ++ [s])) =
      (List.range offers.length).countP (undercuts offers) +
        if offers.all fun earlier => s.cost < earlier.cost then 1 else 0 := by
  have hearlier : (List.range offers.length).countP (undercuts (offers ++ [s])) =
      (List.range offers.length).countP (undercuts offers) := by
    refine List.countP_congr fun place hplace => ?_
    rw [undercuts_concat_of_lt (List.mem_range.1 hplace)]
  rw [List.length_append, List.length_singleton, List.range_succ, List.countP_append, hearlier,
    List.countP_singleton, undercuts_concat]

/-- A better offer takes the place of all before it. -/
theorem accept (h : Keeps offers i) (hs : s.cost < wordLimit - 1)
    (hbetter : i.improvedBy s = true) :
    Keeps (offers ++ [s]) (i.consider s) := by
  have hless : s.cost < i.bound := of_decide_eq_true hbetter
  have hundercuts := (h.improvedBy_eq hs).symm.trans hbetter
  rw [consider_of_lt hless]
  constructor
  · intro other hother
    rcases List.mem_append.1 hother with hold | hnew
    · exact Nat.le_of_lt (Nat.lt_of_lt_of_le hless (h.bound_le other hold))
    · exact Nat.le_of_eq (congrArg Schedule.cost (List.mem_singleton.1 hnew)).symm
  · exact .inr ⟨s, by simp, rfl⟩
  · have hnone : offers.find? (·.cost == s.cost) = none := by
      rw [List.find?_eq_none]
      intro other hother
      have hle := h.bound_le other hother
      simp only [beq_iff_eq]
      omega
    simp only [List.find?_append, hnone]
    simp
  · simp only [countP_undercuts_concat, hundercuts, if_true, h.improvements_eq]
  · have hcounted := h.counted
    show i.improvements + 1 + s.cost < wordLimit
    omega

/-- Any other offer changes nothing. -/
theorem decline (h : Keeps offers i) (hs : s.cost < wordLimit - 1)
    (hno : i.improvedBy s = false) : Keeps (offers ++ [s]) (i.consider s) := by
  have hless : i.bound ≤ s.cost := Nat.le_of_not_lt (of_decide_eq_false hno)
  have hundercuts := (h.improvedBy_eq hs).symm.trans hno
  -- the bound is the number of messages of an offer, or `s` would be the first one
  obtain ⟨least, hleast, hcost⟩ : ∃ least ∈ offers, least.cost = i.bound := by
    rcases h.attained with ⟨_, hlargest⟩ | hattained
    · omega
    · exact hattained
  rw [consider_of_le hless]
  constructor
  · intro other hother
    rcases List.mem_append.1 hother with hold | hnew
    · exact h.bound_le other hold
    · rw [List.mem_singleton.1 hnew]
      exact hless
  · exact .inr ⟨least, List.mem_append_left _ hleast, hcost⟩
  · have hsome : (offers.find? (·.cost == i.bound)).isSome = true := by
      rw [List.find?_isSome]
      exact ⟨least, hleast, beq_iff_eq.2 hcost⟩
    obtain ⟨first, hfirst⟩ := Option.isSome_iff_exists.1 hsome
    rw [List.find?_append, h.best_eq, hfirst, Option.some_or]
  · simp only [countP_undercuts_concat, hundercuts, Bool.false_eq_true, if_false,
      h.improvements_eq, Nat.add_zero]
  · exact h.counted

end Keeps

/-- What offers that are made one after another lead to. -/
theorem offerAll_keeps {offers : List Schedule} (hcount : ∀ s ∈ offers, s.cost < wordLimit - 1) :
    Keeps offers (offerAll offers).2 ∧
      (offerAll offers).1 = (List.range offers.length).map (undercuts offers) := by
  induction offers using List.reverseRecOn with
  | nil => exact ⟨.fresh, rfl⟩
  | append_singleton offers s ih =>
      have hs := hcount s (by simp)
      obtain ⟨hkeeps, hanswers⟩ := ih fun other hother => hcount other (by simp [hother])
      rw [offerAll_concat]
      constructor
      · cases hbetter : (offerAll offers).2.improvedBy s with
        | true => exact hkeeps.accept hs hbetter
        | false => exact hkeeps.decline hs hbetter
      · have hearlier : (List.range offers.length).map (undercuts (offers ++ [s])) =
            (List.range offers.length).map (undercuts offers) :=
          List.map_congr_left fun place hplace =>
            undercuts_concat_of_lt (List.mem_range.1 hplace) s
        rw [hanswers, hkeeps.improvedBy_eq hs, List.length_append, List.length_singleton,
          List.range_succ, List.map_append, hearlier, List.map_singleton, undercuts_concat]

end Incumbent

/-- After any offers the bound is the least number of messages that was offered, or the
largest word if there was no offer; the schedule is the first one with so many
messages; the accepted offers are those with fewer messages than all before them, and
the counter says how many these are, without ever leaving the range of a word. -/
theorem offers_keep_first_minimum {offers : List Schedule}
    (hcount : ∀ s ∈ offers, s.cost < wordLimit - 1) :
    ∃ answers i, Incumbent.offerAll offers = (answers, i) ∧
      i.bound = (offers.map Schedule.cost).min?.getD (wordLimit - 1) ∧
      i.best = offers.find? (·.cost == i.bound) ∧
      i.improvements = (List.range offers.length).countP (undercuts offers) ∧
      answers = (List.range offers.length).map (undercuts offers) ∧
      i.improvements + i.bound < wordLimit := by
  obtain ⟨hkeeps, hanswers⟩ := Incumbent.offerAll_keeps hcount
  exact ⟨_, _, rfl, hkeeps.bound_eq, hkeeps.best_eq, hkeeps.improvements_eq, hanswers,
    hkeeps.counted⟩

/-- Messages without end from a node to the one on its left. -/
def chatter (sender messages : Nat) : Schedule where
  executions := []
  messages := (List.range messages).map fun time =>
    { sender, receiver := sender - 1, time, payload := .singleton sender }

/-- Two improvements among five offers; of the two with three messages the first stays. -/
theorem chatter_offered :
    (∀ s ∈ [chatter 1 5, chatter 2 5, chatter 1 3, chatter 2 3, chatter 3 6],
      s.cost < wordLimit - 1) ∧
    ∃ i, Incumbent.offerAll [chatter 1 5, chatter 2 5, chatter 1 3, chatter 2 3, chatter 3 6] =
        ([true, false, true, false, false], i) ∧
      i.bound = 3 ∧ i.best = some (chatter 1 3) ∧ i.improvements = 2 := by
  have hcount : ∀ s ∈ [chatter 1 5, chatter 2 5, chatter 1 3, chatter 2 3, chatter 3 6],
      s.cost < wordLimit - 1 := by decide
  obtain ⟨answers, i, hoffers, hbound, hbest, himprovements, hanswers, _⟩ :=
    offers_keep_first_minimum hcount
  have hthree : i.bound = 3 := hbound.trans (by decide)
  rw [hthree] at hbest
  have hall : answers = [true, false, true, false, false] := hanswers.trans (by decide)
  rw [hall] at hoffers
  exact ⟨hcount, i, hoffers, hthree, hbest.trans (by decide), himprovements.trans (by decide)⟩

end ChainPropagation
