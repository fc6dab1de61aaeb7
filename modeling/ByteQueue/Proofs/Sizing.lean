import ByteQueue.Proofs.Word
import ByteQueue.Settings.Basic

/-! The doubling rule as a loop. Sizes are doubled modulo `2 ^ 64` until one of them reaches the
goal. Up to a goal of `2 ^ 63` bytes nothing wraps around: sizes double as numbers do, and the
first one that is large enough is found. Beyond that, the doubled size may pass every goal by and
become zero, and then the loop goes on for ever. -/
namespace ByteQueue.Doubling

/-- The loop with no bound on its turns: in so many of them it gets from `size` to `last`, where
the goal is reached. -/
inductive Doubles (goal : UInt64) : Nat → UInt64 → UInt64 → Prop where
  | reached {size : UInt64} (hReached : goal ≤ size) : Doubles goal 0 size size
  | turn {turns : Nat} {size last : UInt64} (hBelow : size < goal)
    (rest : Doubles goal turns (size * 2) last) : Doubles goal (turns + 1) size last

theorem toNat_mul_two (size : UInt64) : (size * 2).toNat = size.toNat * 2 % 2 ^ 64 :=
  UInt64.toNat_mul size 2

namespace Doubles

variable {goal size last : UInt64} {turns : Nat}

/-- Where the goal is reached, the loop has ended. -/
theorem iff_of_le (hReached : goal ≤ size) :
    Doubles goal turns size last ↔ turns = 0 ∧ last = size := by
  constructor
  · intro h
    cases h with
    | reached _ => exact ⟨rfl, rfl⟩
    | turn hBelow _ => exact absurd hBelow (UInt64.not_lt.mpr hReached)
  · rintro ⟨rfl, rfl⟩
    exact .reached hReached

theorem iff_of_lt (hBelow : size < goal) :
    Doubles goal turns size last ↔
      ∃ fewer, turns = fewer + 1 ∧ Doubles goal fewer (size * 2) last := by
  constructor
  · intro h
    cases h with
    | reached hReached => exact absurd hBelow (UInt64.not_lt.mpr hReached)
    | turn _ rest => exact ⟨_, rfl, rest⟩
  · rintro ⟨fewer, rfl, rest⟩
    exact .turn hBelow rest

theorem goal_le (h : Doubles goal turns size last) : goal ≤ last := by
  induction h with
  | reached hReached => exact hReached
  | turn _ _ ih => exact ih

/-- Doubled so often, modulo `2 ^ 64`. -/
theorem toNat_last (h : Doubles goal turns size last) :
    last.toNat = size.toNat * 2 ^ turns % 2 ^ 64 := by
  induction h with
  | reached _ => rw [Nat.pow_zero, Nat.mul_one, Nat.mod_eq_of_lt (UInt64.toNat_lt _)]
  | @turn turns size last _ _ ih =>
    rw [ih, toNat_mul_two, Nat.mod_mul_mod, Nat.mul_assoc, ← Nat.pow_succ']

/-- The loop makes less than 64 turns: after that many the size is zero, which reaches no goal
that was not reached at once. -/
theorem turns_lt (h : Doubles goal turns size last) : turns < 64 := by
  refine Nat.lt_of_not_le fun hMany => ?_
  have hZero : last.toNat = 0 := by
    obtain ⟨more, rfl⟩ := Nat.exists_eq_add_of_le hMany
    rw [h.toNat_last, Nat.pow_add, Nat.mul_left_comm, Nat.mul_mod_right]
  have hGoal := UInt64.le_iff_toNat_le.mp h.goal_le
  cases h with
  | reached _ => exact absurd hMany (by decide)
  | turn hBelow _ =>
    have hPositive := UInt64.lt_iff_toNat_lt.mp hBelow
    omega

/-- Up to `2 ^ 63` nothing wraps around, so that the loop ends at the least doubled size that is
large enough. -/
theorem least (h : Doubles goal turns size last) (hGoal : goal.toNat ≤ 2 ^ 63) :
    last.toNat = size.toNat * 2 ^ turns ∧
      IsLeast {times | goal.toNat ≤ size.toNat * 2 ^ times} turns := by
  induction h with
  | @reached size hReached =>
    have hAtOnce : goal.toNat ≤ size.toNat * 2 ^ 0 := by
      rw [Nat.pow_zero, Nat.mul_one]
      exact UInt64.le_iff_toNat_le.mp hReached
    exact ⟨by rw [Nat.pow_zero, Nat.mul_one], hAtOnce, fun times _ => Nat.zero_le times⟩
  | @turn turns size last hBelow _ ih =>
    have hLt := UInt64.lt_iff_toNat_lt.mp hBelow
    have hTwice : (size * 2).toNat = size.toNat * 2 := by
      rw [toNat_mul_two, Nat.mod_eq_of_lt (by omega)]
    have hPower (times : Nat) : size.toNat * 2 * 2 ^ times = size.toNat * 2 ^ (times + 1) := by
      rw [Nat.mul_assoc, ← Nat.pow_succ']
    obtain ⟨hLast, hEnough, hLeast⟩ := ih
    rw [hTwice] at hLast hEnough hLeast
    refine ⟨hLast.trans (hPower turns), Nat.le_trans hEnough (Nat.le_of_eq (hPower turns)), ?_⟩
    intro times hTimes
    have hSome : times ≠ 0 := by
      rintro rfl
      have hAtOnce : goal.toNat ≤ size.toNat * 2 ^ 0 := hTimes
      omega
    obtain ⟨fewer, rfl⟩ := Nat.exists_eq_succ_of_ne_zero hSome
    exact Nat.succ_le_succ (hLeast (Nat.le_trans hTimes (Nat.le_of_eq (hPower fewer).symm)))

end Doubles

/-- A loop that comes by a size which is large enough ends there, if not before. -/
theorem exists_doubles {goal size : UInt64} (turns : Nat)
    (hEnough : goal.toNat ≤ size.toNat * 2 ^ turns % 2 ^ 64) :
    ∃ turns last, Doubles goal turns size last := by
  induction turns generalizing size with
  | zero =>
    rw [Nat.pow_zero, Nat.mul_one, Nat.mod_eq_of_lt size.toNat_lt] at hEnough
    exact ⟨0, size, .reached (UInt64.le_iff_toNat_le.mpr hEnough)⟩
  | succ turns ih =>
    by_cases hBelow : size < goal
    · have hRest : goal.toNat ≤ (size * 2).toNat * 2 ^ turns % 2 ^ 64 := by
        rwa [toNat_mul_two, Nat.mod_mul_mod, Nat.mul_assoc, ← Nat.pow_succ']
      obtain ⟨fewer, last, hRest⟩ := ih hRest
      exact ⟨fewer + 1, last, .turn hBelow hRest⟩
    · exact ⟨0, size, .reached (UInt64.not_lt.mp hBelow)⟩

/-- The loop ends just if some doubled size, as the word that it is, reaches the goal. -/
theorem exists_doubles_iff {goal size : UInt64} :
    (∃ turns last, Doubles goal turns size last) ↔
      ∃ turns, goal.toNat ≤ size.toNat * 2 ^ turns % 2 ^ 64 := by
  constructor
  · rintro ⟨turns, last, hDoubles⟩
    exact ⟨turns, hDoubles.toNat_last ▸ UInt64.le_iff_toNat_le.mp hDoubles.goal_le⟩
  · rintro ⟨turns, hEnough⟩
    exact exists_doubles turns hEnough

/-- Every size but zero reaches a goal of at most `2 ^ 63`. -/
theorem exists_doubles_of_le {goal size : UInt64} (hSize : size ≠ 0)
    (hGoal : goal.toNat ≤ 2 ^ 63) : ∃ turns last, Doubles goal turns size last := by
  have hPositive := Word.toNat_pos hSize
  have hSome : ∃ turns, goal.toNat ≤ size.toNat * 2 ^ turns := ⟨63, by omega⟩
  have hFits : size.toNat * 2 ^ Nat.find hSome < 2 ^ 64 := by
    cases hTurns : Nat.find hSome with
    | zero =>
      rw [Nat.pow_zero, Nat.mul_one]
      exact size.toNat_lt
    | succ fewer =>
      have hShort : ¬ goal.toNat ≤ size.toNat * 2 ^ fewer := Nat.find_min hSome (by omega)
      rw [Nat.pow_succ, ← Nat.mul_assoc]
      omega
  refine exists_doubles (Nat.find hSome) ?_
  rw [Nat.mod_eq_of_lt hFits]
  exact Nat.find_spec hSome

/-- A bounded search finds the end of the loop if that is near enough. -/
theorem firstReaching?_eq_some_iff {goal last : UInt64} (doublings : Nat) (size : UInt64) :
    firstReaching? goal doublings size = some last ↔
      ∃ turns ≤ doublings, Doubles goal turns size last := by
  induction doublings generalizing size with
  | zero =>
    rw [firstReaching?]
    by_cases hBelow : size < goal
    · simp [hBelow, Doubles.iff_of_lt]
    · simp [hBelow, Doubles.iff_of_le (UInt64.not_lt.mp hBelow), eq_comm]
  | succ doublings ih =>
    rw [firstReaching?]
    by_cases hBelow : size < goal
    · rw [if_pos hBelow, ih]
      simp only [Doubles.iff_of_lt hBelow]
      constructor
      · rintro ⟨turns, hTurns, rest⟩
        exact ⟨turns + 1, Nat.succ_le_succ hTurns, turns, rfl, rest⟩
      · rintro ⟨_, hTurns, turns, rfl, rest⟩
        exact ⟨turns, Nat.le_of_succ_le_succ hTurns, rest⟩
    · simp [hBelow, Doubles.iff_of_le (UInt64.not_lt.mp hBelow), eq_comm]

/-- What sizes are doubled for: all that is wanted, as far as the cap allows. -/
def goal (rule : Doubling) (buffered request : UInt64) : UInt64 :=
  min (rule.wanted buffered request) rule.cap

/-- As a number the goal does not depend on whether the sum is a word: if it is not, it is beyond
the cap as well. -/
theorem toNat_goal (rule : Doubling) (buffered request : UInt64) :
    (rule.goal buffered request).toNat =
      min (buffered.toNat + request.toNat) rule.cap.toNat := by
  have hRequest := request.toNat_lt
  have hCap := rule.cap.toNat_lt
  have hMost : (-1 - request : UInt64).toNat = 2 ^ 64 - 1 - request.toNat :=
    Word.toNat_sub_of_le (a := -1) (Nat.le_pred_of_lt hRequest)
  have hOver : buffered > -1 - request ↔ 2 ^ 64 ≤ buffered.toNat + request.toNat := by
    rw [gt_iff_lt, UInt64.lt_iff_toNat_lt, hMost]
    omega
  rw [goal, Word.toNat_min, wanted]
  by_cases hFits : 2 ^ 64 ≤ buffered.toNat + request.toNat
  · rw [if_pos (hOver.mpr hFits)]
    omega
  · rw [if_neg (mt hOver.mp hFits), Word.toNat_add_of_lt (Nat.lt_of_not_le hFits)]

/-- The rule finds the size that the loop ends with, since no loop that ends makes more turns than
are tried. -/
theorem reached?_eq_some_iff (rule : Doubling) (buffered request last : UInt64) :
    rule.reached? buffered request = some last ↔
      ∃ turns, Doubles (rule.goal buffered request) turns rule.first last := by
  rw [reached?, firstReaching?_eq_some_iff]
  exact exists_congr fun turns => ⟨And.right, fun h => ⟨h.turns_lt.le, h⟩⟩

theorem next?_of_cap_le {rule : Doubling} {request : UInt64} (hLarge : rule.cap ≤ request)
    (buffered : UInt64) : rule.next? buffered request = some request := by
  rw [next?, if_pos hLarge]

theorem next?_eq_some_iff_of_lt {rule : Doubling} {request : UInt64} (hSmall : request < rule.cap)
    (buffered size : UInt64) :
    rule.next? buffered request = some size ↔
      ∃ turns last, Doubles (rule.goal buffered request) turns rule.first last ∧
        size = max (min last rule.cap) request := by
  rw [next?, if_neg (UInt64.not_le.mpr hSmall), Option.map_eq_some_iff]
  simp only [reached?_eq_some_iff]
  constructor
  · rintro ⟨last, ⟨turns, hDoubles⟩, hSize⟩
    exact ⟨turns, last, hDoubles, hSize.symm⟩
  · rintro ⟨turns, last, hDoubles, hSize⟩
    exact ⟨last, ⟨turns, hDoubles⟩, hSize.symm⟩

/-- A size is found for a request that reaches the cap, and for another one if the loop ends. -/
theorem exists_next?_iff (rule : Doubling) (buffered request : UInt64) :
    (∃ size, rule.next? buffered request = some size) ↔
      rule.cap ≤ request ∨
        ∃ turns last, Doubles (rule.goal buffered request) turns rule.first last := by
  by_cases hLarge : rule.cap ≤ request
  · exact ⟨fun _ => .inl hLarge, fun _ => ⟨request, next?_of_cap_le hLarge buffered⟩⟩
  · simp only [next?_eq_some_iff_of_lt (UInt64.not_le.mp hLarge)]
    constructor
    · rintro ⟨_, turns, last, hDoubles, _⟩
      exact .inr ⟨turns, last, hDoubles⟩
    · rintro (hLarge' | ⟨turns, last, hDoubles⟩)
      · exact absurd hLarge' hLarge
      · exact ⟨_, turns, last, hDoubles, rfl⟩

/-- Up to a goal of `2 ^ 63` the size is the least doubled one that is large enough, as far as the
cap allows. It has room for the request. -/
theorem next?_of_lt {rule : Doubling} (hFirst : rule.first ≠ 0) (hCap : rule.first ≤ rule.cap)
    {buffered request : UInt64} (hSmall : request < rule.cap)
    (hGoal : min (buffered.toNat + request.toNat) rule.cap.toNat ≤ 2 ^ 63) :
    ∃ size times, rule.next? buffered request = some size ∧
      IsLeast {times | min (buffered.toNat + request.toNat) rule.cap.toNat ≤
        rule.first.toNat * 2 ^ times} times ∧
      size.toNat = min (rule.first.toNat * 2 ^ times) rule.cap.toNat ∧
      request ≤ size ∧ rule.first ≤ size ∧ size ≤ rule.cap := by
  rw [← rule.toNat_goal] at hGoal ⊢
  obtain ⟨times, last, hDoubles⟩ := exists_doubles_of_le hFirst hGoal
  obtain ⟨hLast, hLeast⟩ := hDoubles.least hGoal
  have hNext := (next?_eq_some_iff_of_lt hSmall buffered _).mpr ⟨times, last, hDoubles, rfl⟩
  have hEnough : (rule.goal buffered request).toNat ≤ rule.first.toNat * 2 ^ times := hLeast.1
  have hFirstLe : rule.first.toNat ≤ rule.first.toNat * 2 ^ times :=
    Nat.le_mul_of_pos_right _ (Nat.two_pow_pos times)
  rw [UInt64.lt_iff_toNat_lt] at hSmall
  rw [UInt64.le_iff_toNat_le] at hCap
  rw [rule.toNat_goal] at hEnough
  -- the request is below the goal, so the clamp to the request changes nothing
  have hSize : (max (min last rule.cap) request).toNat =
      min (rule.first.toNat * 2 ^ times) rule.cap.toNat := by
    rw [Word.toNat_max, Word.toNat_min, hLast]
    omega
  refine ⟨max (min last rule.cap) request, times, hNext, hLeast, hSize, ?_⟩
  rw [UInt64.le_iff_toNat_le, UInt64.le_iff_toNat_le, UInt64.le_iff_toNat_le, hSize]
  omega

/-- The rule finds a size within its bounds, unless the request alone reaches the cap; then the
chunk holds just the request. -/
theorem next_spec {rule : Doubling} (hFirst : rule.first ≠ 0) (hCap : rule.first ≤ rule.cap)
    {buffered request : UInt64} (h : buffered.toNat + request.toNat ≤ 2 ^ 63) :
    ∃ size, rule.next? buffered request = some size ∧ request ≤ size ∧
      (rule.first ≤ size ∧ size ≤ rule.cap ∨ size = request ∧ rule.cap ≤ request) := by
  by_cases hLarge : rule.cap ≤ request
  · exact ⟨request, next?_of_cap_le hLarge buffered, UInt64.le_refl _, .inr ⟨rfl, hLarge⟩⟩
  · obtain ⟨size, _, hNext, _, _, hRoom, hAbove, hBelow⟩ :=
      next?_of_lt hFirst hCap (UInt64.not_le.mp hLarge) (Nat.le_trans (Nat.min_le_left _ _) h)
    exact ⟨size, hNext, hRoom, .inl ⟨hAbove, hBelow⟩⟩

/-- What the rule answers as long as the goal is at most `2 ^ 63`, in numbers: a request that
reaches the cap gets a chunk of its own, and every other one gets the first size, doubled the least
number of times that reaches the goal, but not beyond the cap. Nothing else is larger than the cap
than what holds such a request. The sum of what is buffered and requested need not be a word. -/
theorem next_is_least_doubled {rule : Doubling} (positive : rule.first ≠ 0)
    (ordered : rule.first ≤ rule.cap) (buffered request : UInt64)
    (bound : min (buffered.toNat + request.toNat) rule.cap.toNat ≤ 2 ^ 63) :
    ∃ size, rule.next? buffered request = some size ∧
      (rule.cap ≤ request → size = request) ∧
      (request < rule.cap → ∃ times,
        IsLeast {times | min (buffered.toNat + request.toNat) rule.cap.toNat ≤
          rule.first.toNat * 2 ^ times} times ∧
        size.toNat = min (rule.first.toNat * 2 ^ times) rule.cap.toNat) ∧
      request ≤ size ∧ rule.first ≤ size ∧
      (rule.cap < size → rule.cap < request ∧ size = request) := by
  by_cases hLarge : rule.cap ≤ request
  · exact ⟨request, next?_of_cap_le hLarge buffered, fun _ => rfl,
      fun hSmall => absurd hLarge (UInt64.not_le.mpr hSmall), UInt64.le_refl _,
      UInt64.le_trans ordered hLarge, fun hBeyond => ⟨hBeyond, rfl⟩⟩
  · obtain ⟨size, times, hNext, hLeast, hSize, hRoom, hAbove, hBelow⟩ :=
      next?_of_lt positive ordered (UInt64.not_le.mp hLarge) bound
    exact ⟨size, hNext, fun hLarge' => absurd hLarge' hLarge, fun _ => ⟨times, hLeast, hSize⟩,
      hRoom, hAbove, fun hBeyond => absurd hBelow (UInt64.not_le.mpr hBeyond)⟩

/-- The sum is no word, and the cap is no power of two times the first size. -/
theorem next_is_least_doubled_beyond_words :
    let rule : Doubling := ⟨3, 100⟩
    rule.first ≠ 0 ∧ rule.first ≤ rule.cap ∧
      min ((2 ^ 64 - 1 : UInt64).toNat + (7 : UInt64).toNat) rule.cap.toNat ≤ 2 ^ 63 ∧
      rule.next? (2 ^ 64 - 1) 7 = some 100 := by
  intro rule
  have hPositive : rule.first ≠ 0 := by decide
  have hOrdered : rule.first ≤ rule.cap := by decide
  have hBound : min ((2 ^ 64 - 1 : UInt64).toNat + (7 : UInt64).toNat) rule.cap.toNat ≤ 2 ^ 63 := by
    decide +kernel
  obtain ⟨size, hNext, _, hDoubled, _⟩ :=
    next_is_least_doubled hPositive hOrdered (2 ^ 64 - 1) 7 hBound
  obtain ⟨times, ⟨hEnough, _⟩, hSize⟩ := hDoubled (by decide)
  have hGoal : min ((2 ^ 64 - 1 : UInt64).toNat + (7 : UInt64).toNat) rule.cap.toNat = 100 := by
    decide +kernel
  rw [Set.mem_ofPred_eq, hGoal] at hEnough
  have hCapped : size = 100 := UInt64.toNat_inj.mp (hSize.trans (Nat.min_eq_right hEnough))
  exact ⟨hPositive, hOrdered, hBound, by rw [hNext, hCapped]⟩

/-- When the rule finds a size: for a request that reaches the cap, and for another one just if the
first size, doubled often enough modulo `2 ^ 64`, reaches what is wanted or the cap. If not, the
loop goes on for ever. Up to `2 ^ 63` it always ends. -/
theorem next_ends_iff {settings : Settings} (doubling : settings.rule = .doubling)
    (valid : settings.Valid) (buffered request : UInt64) :
    let rule : Doubling := ⟨settings.initialChunkSize, settings.maxChunkSize⟩
    let goal := min (buffered.toNat + request.toNat) rule.cap.toNat
    ((∃ size, settings.sizing.next? buffered request = some size) ↔
        rule.cap ≤ request ∨ ∃ times, goal ≤ rule.first.toNat * 2 ^ times % 2 ^ 64) ∧
      (settings.sizing.next? buffered request = none ↔ request < rule.cap ∧
        ∀ turns last, ¬ Doubles (rule.goal buffered request) turns rule.first last) ∧
      (goal ≤ 2 ^ 63 → ∃ size, settings.sizing.next? buffered request = some size) := by
  intro rule goal
  obtain ⟨hFirst, _, hCap⟩ := settings.valid_iff.mp valid
  have hSizing : settings.sizing = .doubling rule := by rw [Settings.sizing, doubling]
  have hNext : settings.sizing.next? buffered request = rule.next? buffered request := by
    rw [hSizing, Sizing.next?]
  have hEnds := rule.exists_next?_iff buffered request
  rw [hNext]
  refine ⟨?_, ?_, fun hGoal => ?_⟩
  · rw [hEnds, exists_doubles_iff, toNat_goal]
  · rw [← Option.not_isSome_iff_eq_none, Option.isSome_iff_exists, hEnds, not_or, UInt64.not_le]
    simp only [not_exists]
  · exact hEnds.mpr (.inr (exists_doubles_of_le hFirst (by rwa [toNat_goal])))

/-- Three, doubled 62 times, is the first size of at least `2 ^ 63 + 5`; doubled once more, it would
not be. -/
theorem next_ends_iff_past_half :
    let settings : Settings :=
      { rule := .doubling, initialChunkSize := 3, maxChunkSize := 2 ^ 64 - 1 }
    settings.rule = .doubling ∧ settings.Valid ∧
      ∃ size, settings.sizing.next? (2 ^ 63) 5 = some size := by
  intro settings
  have hRule : settings.rule = .doubling := rfl
  have hValid : settings.Valid := by decide +kernel
  obtain ⟨hEnds, _⟩ := next_ends_iff hRule hValid (2 ^ 63) 5
  exact ⟨hRule, hValid, hEnds.mpr (.inr ⟨62, by decide +kernel⟩)⟩

/-- Valid settings without a bound in effect, and one byte more than `2 ^ 63`: the doubled sizes
come by `2 ^ 63` and then by zero, and the loop never ends. -/
theorem doubling_goes_on_for_ever :
    let settings : Settings := { rule := .doubling, maxChunkSize := 2 ^ 64 - 1 }
    let rule : Doubling := ⟨settings.initialChunkSize, settings.maxChunkSize⟩
    settings.Valid ∧ settings.sizing.next? (2 ^ 63) 1 = none ∧
      ∀ turns last, ¬ Doubles (rule.goal (2 ^ 63) 1) turns rule.first last := by
  intro settings rule
  have hNone : rule.reached? (2 ^ 63) 1 = none := by decide +kernel
  refine ⟨by decide +kernel, by decide +kernel, fun turns last hDoubles => ?_⟩
  have hSome := (rule.reached?_eq_some_iff (2 ^ 63) 1 last).mpr ⟨turns, hDoubles⟩
  rw [hNone] at hSome
  cases hSome

end ByteQueue.Doubling
