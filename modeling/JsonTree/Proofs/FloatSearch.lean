import JsonTree.Proofs.FloatLiterals
import JsonTree.Proofs.StrictText
import JsonTree.Proofs.Writing
import Mathlib.Data.Nat.Dist

/-!
How the text of a float is chosen. The shortest text comes first, and then the numbers of seventeen
digits around the float by their distance in steps of the last digit. The first of these texts that
reads back as the float is taken. A search that finds none falls back on a text that reads as a float.
-/
namespace JsonTree.FloatText

/-- The text reads as a float. -/
def ReadsAs (t : List Char) (y : Float) : Prop := parseNumber (Utf8.ofChars t) = .ok (.float y)

/-- The text reads as a float with the same bits. -/
def Restores (t : List Char) (x : Float) : Prop := ∃ y, ReadsAs t y ∧ y.toBits = x.toBits

/-- A number of seventeen digits within reach of the digits of a float. -/
structure Near (x : Float) (n : Nat) : Prop where
  digits : 10 ^ 16 ≤ n ∧ n < 10 ^ 17
  steps : Nat.dist n (Decimal.rounded x).digits ≤ 64

/-- The text of the number in place of the digits of a float, with the sign and the exponent of it. -/
def candidate (x : Float) (n : Nat) : List Char :=
  candidateText x ((Decimal.rounded x).exponent + 16) n

/-- The rule by which a text is chosen for a float. -/
inductive Chosen (x : Float) : List Char → Prop where
  | shortest : Restores (shortest x) x → Chosen x (shortest x)
  | exact {n : Nat} : ¬ Restores (FloatText.shortest x) x → Near x n → Restores (candidate x n) x →
      (∀ m, Near x m → Restores (candidate x m) x →
        Nat.dist n (Decimal.rounded x).digits ≤ Nat.dist m (Decimal.rounded x).digits) →
      Chosen x (candidate x n)
  | inexact {n : Nat} : ¬ Restores (FloatText.shortest x) x →
      (∀ m, Near x m → ¬ Restores (candidate x m) x) → Near x n → (∃ y, ReadsAs (candidate x n) y) →
      Chosen x (candidate x n)
  | unread : ¬ Restores (FloatText.shortest x) x → (∀ m y, Near x m → ¬ ReadsAs (candidate x m) y) →
      Chosen x (FloatText.shortest x)

/-! ### Reading back -/

theorem restores_iff {x : Float} {t : List Char} : Restores t x ↔ readsBack x t := by
  rw [readsBack_iff]
  constructor
  · rintro ⟨y, read, bits⟩
    rwa [← float_ext bits]
  · intro read
    exact ⟨x, read, rfl⟩

theorem readBack_eq_some_iff {t : List Char} {y : Float} : readBack t = some y ↔ ReadsAs t y := by
  unfold readBack ReadsAs
  constructor
  · intro h
    split at h
    · rename_i read
      cases h
      exact read
    · contradiction
  · intro h
    rw [h]

theorem readBack_isSome_iff {t : List Char} : (readBack t).isSome ↔ ∃ y, ReadsAs t y := by
  rw [Option.isSome_iff_exists]
  exact exists_congr fun _ => readBack_eq_some_iff

/-! ### The order of the candidates -/

/-- The numbers that are one count of steps away. -/
theorem dist_of_mem_step {n m step : Nat}
    (h : m ∈ (if step ≤ n then [n - step] else []) ++ [n + step]) : Nat.dist m n = step := by
  rw [Nat.dist]
  split at h
  · simp only [List.singleton_append, List.mem_cons, List.not_mem_nil, or_false] at h
    omega
  · simp only [List.nil_append, List.mem_singleton] at h
    omega

theorem mem_candidates {n m : Nat} :
    m ∈ candidates n ↔ (10 ^ 16 ≤ m ∧ m < 10 ^ 17) ∧ Nat.dist m n ≤ 64 := by
  have places : Decimal.hasSeventeenDigits m ↔ 10 ^ 16 ≤ m ∧ m < 10 ^ 17 := by
    have least : Decimal.leastSeventeen = 10 ^ 16 := rfl
    simp only [Decimal.hasSeventeenDigits, least, Bool.and_eq_true, decide_eq_true_eq]
    omega
  rw [candidates, List.mem_filter, places, and_comm]
  refine and_congr_right fun _ => ?_
  rw [List.mem_flatMap]
  constructor
  · rintro ⟨step, inside, hm⟩
    rw [dist_of_mem_step hm]
    exact Nat.le_of_lt_succ (List.mem_range.1 inside)
  · intro steps
    refine ⟨Nat.dist m n, List.mem_range.2 (Nat.lt_succ_of_le steps), ?_⟩
    rw [Nat.dist]
    rcases Nat.le_total m n with below | above
    · rw [if_pos (by omega)]
      simp only [List.singleton_append, List.mem_cons]
      omega
    · simp only [List.mem_append, List.mem_singleton]
      omega

theorem near_iff {x : Float} {n : Nat} : Near x n ↔ n ∈ candidates (Decimal.rounded x).digits := by
  rw [mem_candidates]
  exact ⟨fun h => ⟨h.digits, h.steps⟩, fun h => ⟨h.1, h.2⟩⟩

theorem pairwise_candidates (n : Nat) :
    (candidates n).Pairwise fun a b => Nat.dist a n ≤ Nat.dist b n := by
  apply List.Pairwise.filter
  rw [List.pairwise_flatMap]
  constructor
  · intro step _
    rw [List.pairwise_iff_forall_sublist]
    intro a b pair
    rw [dist_of_mem_step (pair.subset (by simp)), dist_of_mem_step (pair.subset (by simp))]
  · refine List.pairwise_lt_range.imp fun less a ha b hb => ?_
    rw [dist_of_mem_step ha, dist_of_mem_step hb]
    exact Nat.le_of_lt less

/-! ### The search -/

variable {x : Float} {exponent : Int} {best : Option (Float × List Char)}

/-- The first candidate that reads back is found, whatever is before it. -/
theorem search_of_exact {n : Nat} {before after : List Nat}
    (others : ∀ m ∈ before, ¬ readsBack x (candidateText x exponent m))
    (exact : readsBack x (candidateText x exponent n)) :
    search x exponent best (before ++ n :: after) = some (candidateText x exponent n) := by
  induction before generalizing best with
  | nil =>
    rw [List.nil_append, search]
    unfold readsBack at exact
    split at exact
    · rename_i same
      simp only [same, exact, if_true]
    · contradiction
  | cons m rest ih =>
    obtain ⟨first, others⟩ := List.forall_mem_cons.1 others
    rw [List.cons_append, search]
    unfold readsBack at first
    split at first
    · rename_i same
      simp only [same, first]
      exact ih others
    · rename_i same
      simp only [same]
      exact ih others

/-- A search gives nothing only where no candidate reads as a float. -/
theorem search_eq_none {ns : List Nat} (h : search x exponent best ns = none) :
    best = none ∧ ∀ n ∈ ns, readBack (candidateText x exponent n) = none := by
  fun_induction search x exponent best ns with
  | case1 best => exact ⟨Option.map_eq_none_iff.1 h, List.forall_mem_nil _⟩
  | case2 best n rest _ unread ih =>
    obtain ⟨none_before, others⟩ := ih h
    exact ⟨none_before, List.forall_mem_cons.2 ⟨unread, others⟩⟩
  | case3 => contradiction
  | case4 best n rest _ y _ _ distance closer ih =>
    -- One of the two is kept, so the search goes on with a text to fall back on.
    obtain ⟨kept, _⟩ := ih h
    cases best with
    | none => contradiction
    | some p => split at kept <;> contradiction

theorem chosen_nearby (other : ¬ Restores (shortest x) x) :
    Chosen x ((nearby x).getD (shortest x)) := by
  by_cases hit : ∃ n, Near x n ∧ Restores (candidate x n) x
  · obtain ⟨m, inside, exact⟩ := hit
    have found : ((candidates (Decimal.rounded x).digits).find?
        fun n => readsBack x (candidate x n)).isSome :=
      List.find?_isSome.2 ⟨m, near_iff.1 inside, restores_iff.1 exact⟩
    obtain ⟨n, first⟩ := Option.isSome_iff_exists.1 found
    obtain ⟨exact, before, after, parts, others⟩ := List.find?_eq_some_iff_append.1 first
    have ordered := pairwise_candidates (Decimal.rounded x).digits
    have earlier : ∀ m ∈ before, ¬ readsBack x (candidate x m) := by simpa using others
    have same : nearby x = some (candidate x n) := by
      rw [nearby, parts]
      exact search_of_exact earlier exact
    rw [parts, List.pairwise_append, List.pairwise_cons] at ordered
    rw [same, Option.getD_some]
    have inside : Near x n := near_iff.2 (by simp [parts])
    refine .exact other inside (restores_iff.2 exact) fun m inside exact => ?_
    have mem := near_iff.1 inside
    rw [parts, List.mem_append, List.mem_cons] at mem
    rcases mem with before | rfl | later
    · exact absurd (restores_iff.1 exact) (earlier m before)
    · exact Nat.le_refl _
    · exact ordered.2.1.1 m later
  · have missed : ∀ m, Near x m → ¬ Restores (candidate x m) x :=
      fun m inside exact => hit ⟨m, inside, exact⟩
    cases found : nearby x with
    | none =>
      refine .unread other fun m y inside read => ?_
      have unread : readBack (candidate x m) = none := (search_eq_none found).2 m (near_iff.1 inside)
      rw [readBack_eq_some_iff.2 read] at unread
      contradiction
    | some t =>
      obtain ⟨_, none_before, _⟩ | ⟨n, inside, back, rfl⟩ := search_mem found
      · contradiction
      · have reads : ∃ y, ReadsAs (candidate x n) y := readBack_isSome_iff.1 back
        exact .inexact other missed (near_iff.2 inside) reads

theorem chosen_text (finite : x.isFinite) : Chosen x (text x) := by
  unfold text
  rw [finite, Bool.not_true, if_neg Bool.false_ne_true]
  split
  · rename_i exact
    exact .shortest (restores_iff.2 exact)
  · rename_i other
    exact chosen_nearby (mt restores_iff.1 other)

/-- A text that reads back is taken as soon as one is among those that are tried. -/
theorem Chosen.restores {t : List Char} (h : Chosen x t)
    (one : Restores (FloatText.shortest x) x ∨ ∃ n, Near x n ∧ Restores (candidate x n) x) :
    Restores t x := by
  cases h with
  | shortest exact => exact exact
  | exact _ _ exact _ => exact exact
  | inexact other missed _ _ =>
    obtain exact | ⟨n, inside, exact⟩ := one
    · exact absurd exact other
    · exact absurd exact (missed n inside)
  | unread other unread =>
    obtain exact | ⟨n, inside, y, read, _⟩ := one
    · exact exact
    · exact absurd read (unread n y inside)

/-! ### The text of a float -/

/-- The shortest text that reads back is taken, or else the candidate of the fewest steps that does,
so a text that reads back is written as soon as one is among those that are tried. The candidates
denote the numbers of seventeen digits around the float, with the sign of it. -/
theorem text_chosen {x : Float} (finite : x.isFinite) :
    Chosen x (text x) ∧
    (Restores (shortest x) x ∨ (∃ n, Near x n ∧ Restores (candidate x n) x) → Restores (text x) x) ∧
    ∀ n, ∃ d : DecimalLiteral, d.WellFormed ∧ d.text = Utf8.ofChars (candidate x n) ∧
      d.amount = (if isNegative x then -1 else 1) * (n * 10 ^ (Decimal.rounded x).exponent) := by
  have chosen := chosen_text finite
  refine ⟨chosen, chosen.restores, fun n => ?_⟩
  have writes := writes_candidateLiteral x ((Decimal.rounded x).exponent + 16) n
  have amount := writes.amount (x := x) rfl
  rw [add_sub_cancel_right] at amount
  exact ⟨_, writes.formed, text_candidateLiteral x _ n, amount⟩

/-- The float that `-1.2200000000000002e275` is decoded to. The nearest number of seventeen digits is
two steps away from that one. -/
def displaced : Float := .ofBits 0xF90C309E4B3E365E

theorem text_chosen_displaced : ¬ Restores (shortest displaced) displaced ∧
    ¬ Restores (candidate displaced 12200000000000000) displaced ∧
    Near displaced 12200000000000002 ∧ Restores (text displaced) displaced := by
  have near : Near displaced 12200000000000002 := ⟨by decide, by decide +kernel⟩
  have exact : Restores (candidate displaced 12200000000000002) displaced :=
    restores_iff.2 (by decide +kernel)
  have restored := (text_chosen (x := displaced) (by decide +kernel)).2.1 (.inr ⟨_, near, exact⟩)
  refine ⟨mt restores_iff.1 ?_, mt restores_iff.1 ?_, near, restored⟩
  · decide +kernel
  · decide +kernel

end JsonTree.FloatText
