import Mathlib.Algebra.Order.Ring.Int
import Docsmith.Service.Retry

namespace Docsmith

/-!
# The schedule of repeated requests

A service is told by what it answers, attempt after attempt.  How often it is asked, what the request comes to and
how long each pause lasts depend on these answers alone.

* `DelayArith.Exact`: an arithmetic of delays that computes values of an ordered ring exactly.
* `exact_delays_int`: the arithmetic of numbers does on integers.
* `RetryPolicy.history`: the first answers of a service.
* `RetryPolicy.Scheduled`: what the attempts from one number on are to come to.
* `RetryPolicy.scheduled_attemptFrom`, `RetryPolicy.scheduled_run`: what they do come to.
* `RetryPolicy.Scheduled.value_pause`, `RetryPolicy.Scheduled.pairwise_pauses`: how long the pauses last, and that they
  never get shorter.
* `RetryPolicy.requests_keep_the_schedule`: the whole loop, for every sequence of answers.
-/

variable {ν κ α σ : Type}

/-! ### Exact arithmetic -/

section Exact

variable [Semiring κ] [LinearOrder κ]

/-- The arithmetic computes the values of the delays in question exactly. -/
structure DelayArith.Exact (arith : DelayArith ν) (sound : ν → Prop) (value : ν → κ) : Prop where
  double : ∀ {d}, sound d → ∀ n, sound (arith.double d n) ∧ value (arith.double d n) = value d * 2 ^ n
  min : ∀ {a b}, sound a → sound b → sound (arith.min a b) ∧ value (arith.min a b) = Min.min (value a) (value b)
  max : ∀ {a b}, sound a → sound b → sound (arith.max a b) ∧ value (arith.max a b) = Max.max (value a) (value b)
  isZero : ∀ {a}, sound a → (arith.isZero a = true ↔ value a = 0)

end Exact

/-- The integer that a number is, or zero. -/
def Number.intValue : Number → Int
  | int n => n
  | float _ => 0

/-- **Integers are computed with exactly.** -/
theorem exact_delays_int : Number.delays.Exact (fun d => ∃ n, d = .int n) Number.intValue where
  double := by
    -- the three operations on integers are those of the schedule, by computation
    rintro _ ⟨a, rfl⟩ n
    refine ⟨⟨_, rfl⟩, ?_⟩
    show a * ((Nat.pow 2 n : Nat) : Int) = a * 2 ^ n
    rw [Nat.pow_eq, Nat.cast_pow, Nat.cast_ofNat]
  min := by
    rintro _ _ ⟨a, rfl⟩ ⟨b, rfl⟩
    by_cases hlt : b < a
    · simp [Number.delays, Number.min, Number.lt, Number.intValue, hlt, hlt.le]
    · simp [Number.delays, Number.min, Number.lt, Number.intValue, hlt, not_lt.mp hlt]
  max := by
    rintro _ _ ⟨a, rfl⟩ ⟨b, rfl⟩
    by_cases hlt : a < b
    · simp [Number.delays, Number.max, Number.lt, Number.intValue, hlt, hlt.le]
    · simp [Number.delays, Number.max, Number.lt, Number.intValue, hlt, not_lt.mp hlt]
  isZero := by
    rintro _ ⟨a, rfl⟩
    exact beq_iff_eq

namespace RetryPolicy

variable {p : RetryPolicy ν} {arith : DelayArith ν} {wish : ServiceFault → Option ν}
  {call : σ → Except ServiceFault α × σ} {attempt left n i : Nat} {s : σ} {f : ServiceFault}

/-! ### What a service answers -/

/-- The first answers of a service that is asked again and again. -/
def history (call : σ → Except ServiceFault α × σ) : Nat → σ → List (Except ServiceFault α)
  | 0, _ => []
  | n + 1, s => (call s).1 :: history call n (call s).2

/-- The state of a service after some answers. -/
def stateAfter (call : σ → Except ServiceFault α × σ) : Nat → σ → σ
  | 0, s => s
  | n + 1, s => stateAfter call n (call s).2

/-- The answer is a fault after which the request is repeated. -/
def repeatsAfter (p : RetryPolicy ν) : Except ServiceFault α → Bool
  | .ok _ => false
  | .error f => p.repeats f

/-- The number of such faults that come first among some answers. -/
def leading (p : RetryPolicy ν) (answers : List (Except ServiceFault α)) : Nat :=
  (answers.takeWhile p.repeatsAfter).length

theorem leading_cons_of_repeats {answer : Except ServiceFault α} {answers : List (Except ServiceFault α)}
    (h : p.repeatsAfter answer = true) : p.leading (answer :: answers) = p.leading answers + 1 := by
  rw [leading, List.takeWhile_cons_of_pos h, List.length_cons, leading]

theorem leading_cons_of_settles {answer : Except ServiceFault α} {answers : List (Except ServiceFault α)}
    (h : p.repeatsAfter answer = false) : p.leading (answer :: answers) = 0 := by
  rw [leading, List.takeWhile_cons_of_neg (by rw [h]; exact Bool.false_ne_true), List.length_nil]

/-! ### The attempts -/

/-- What some attempts, counted on from a number, are to come to: they end with the first answer that settles the
    request or with the last attempt, and a pause with its fault stands before each one but the first. -/
structure Scheduled (p : RetryPolicy ν) (arith : DelayArith ν) (wish : ServiceFault → Option ν)
    (call : σ → Except ServiceFault α × σ) (attempt n : Nat) (s : σ) (o : RetryOutcome ν α σ) : Prop where
  calls : o.calls = attempt + min n (1 + p.leading (history call n s))
  pauses : attempt + o.pauses.length + 1 = o.calls
  result : (history call n s)[o.pauses.length]? = some o.result
  state : o.state = stateAfter call (o.pauses.length + 1) s
  pause : ∀ i pause, o.pauses[i]? = some pause → pause.attempt = attempt + i + 1 ∧
    (history call n s)[i]? = some (.error pause.cause) ∧
    pause.delay = p.delay arith (attempt + i) (wish pause.cause)

/-- An attempt is the last one if it settles the request, or if none is left. -/
theorem scheduled_last (h : left = 0 ∨ p.repeatsAfter (call s).1 = false) :
    p.Scheduled arith wish call attempt (left + 1) s ⟨(call s).1, [], attempt + 1, (call s).2⟩ where
  calls := by
    show attempt + 1 = attempt + min (left + 1) _
    rcases h with rfl | hsettles
    · omega
    · rw [history, leading_cons_of_settles hsettles]
      omega
  pauses := rfl
  result := rfl
  state := rfl
  pause := by
    intro i pause hpause
    cases hpause

/-- An attempt after which others follow puts a pause before what they come to. -/
theorem scheduled_again {later : RetryOutcome ν α σ} (hanswer : (call s).1 = .error f) (hrepeats : p.repeats f = true)
    (h : p.Scheduled arith wish call (attempt + 1) n (call s).2 later) :
    p.Scheduled arith wish call attempt (n + 1) s
      { later with pauses := ⟨attempt + 1, p.delay arith attempt (wish f), f⟩ :: later.pauses } where
  calls := by
    -- one more call is made, and one more answer of the history was passed over
    have hleading : p.leading (history call (n + 1) s) = p.leading (history call n (call s).2) + 1 := by
      apply leading_cons_of_repeats
      rw [hanswer]
      exact hrepeats
    show later.calls = _
    rw [h.calls, hleading]
    omega
  pauses := by
    show attempt + (later.pauses.length + 1) + 1 = later.calls
    rw [← h.pauses]
    omega
  result := h.result
  state := h.state
  pause := by
    intro i pause hpause
    -- the first pause is the one made here; every other one is the later run's, an attempt further on
    cases i with
    | zero =>
      cases hpause
      exact ⟨rfl, congrArg some hanswer, rfl⟩
    | succ i =>
      obtain ⟨hattempt, hcause, hdelay⟩ := h.pause i pause hpause
      have hcount : attempt + 1 + i = attempt + (i + 1) := by omega
      rw [hcount] at hattempt hdelay
      exact ⟨hattempt, hcause, hdelay⟩

/-- **The attempts keep their schedule.** -/
theorem scheduled_attemptFrom :
    p.Scheduled arith wish call attempt (left + 1) s (p.attemptFrom arith wish call attempt left s) := by
  -- each attempt leaves one fewer and hands on the state of the service
  induction left generalizing attempt s with
  | zero => exact scheduled_last (.inl rfl)
  | succ left ih =>
    rw [attemptFrom]
    split
    · rename_i a s' hcall
      -- a value settles the request, whatever is left
      have hsettles : p.repeatsAfter (call s).1 = false := congrArg (fun c => p.repeatsAfter c.1) hcall
      have hlast : p.Scheduled arith wish call attempt (left + 2) s _ := scheduled_last (.inr hsettles)
      rwa [hcall] at hlast
    · rename_i f s' hcall
      have hanswer : (call s).1 = .error f := congrArg Prod.fst hcall
      have hstate : (call s).2 = s' := congrArg Prod.snd hcall
      split
      · rename_i hrepeats
        exact scheduled_again hanswer hrepeats (hstate ▸ ih)
      · rename_i hrepeats
        have hsettles : p.repeatsAfter (call s).1 = false := by
          rw [hanswer]
          exact Bool.not_eq_true _ ▸ hrepeats
        rw [← hanswer, ← hstate]
        exact scheduled_last (.inr hsettles)

/-- So does the whole loop, if it may make an attempt at all. -/
theorem scheduled_run (hattempts : 1 ≤ p.attempts) (call : σ → Except ServiceFault α × σ) (s : σ) :
    p.Scheduled arith wish call 0 p.attempts.toNat s (p.run arith wish call s) := by
  obtain ⟨left, hleft⟩ : ∃ left, p.attempts.toNat = left + 1 := Nat.exists_eq_add_one.mpr (by omega)
  rw [run, hleft]
  exact scheduled_attemptFrom

/-! ### The pauses -/

section Delays

variable [Semiring κ] [LinearOrder κ] {sound : ν → Prop} {value : ν → κ}

/-- The delay after an attempt, counted from zero, unless the service wishes for a longer one: doubled each time, up
    to the longest. -/
def backoff (p : RetryPolicy ν) (value : ν → κ) (attempt : Nat) : κ :=
  min (value p.baseDelay * 2 ^ attempt) (value p.maxDelay)

theorem backoff_le_longest : p.backoff value i ≤ value p.maxDelay := min_le_right _ _

/-- What a wish makes of the doubled delay is no shorter. -/
theorem le_wished (w : κ) : p.backoff value i ≤ min (max (p.backoff value i) w) (value p.maxDelay) :=
  le_min (le_max_left _ _) backoff_le_longest

/-- Without a wish the delay is the doubled one. -/
theorem value_delay_none (exact : arith.Exact sound value) (hbase : sound p.baseDelay) (hmax : sound p.maxDelay) :
    value (p.delay arith i none) = p.backoff value i := by
  obtain ⟨hdouble, hvalue⟩ := exact.double hbase i
  show value (arith.min (arith.double p.baseDelay i) p.maxDelay) = _
  rw [(exact.min hdouble hmax).2, hvalue, backoff]

/-- A wish other than zero lengthens the delay, up to the longest. -/
theorem value_delay_some {w : ν} (exact : arith.Exact sound value) (hbase : sound p.baseDelay)
    (hmax : sound p.maxDelay) (hw : sound w) (hzero : value w ≠ 0) :
    value (p.delay arith i (some w)) = min (max (p.backoff value i) (value w)) (value p.maxDelay) := by
  have hback : sound (p.delay arith i none) := (exact.min (exact.double hbase i).1 hmax).1
  obtain ⟨hlong, hvalue⟩ := exact.max hback hw
  have hdelay : p.delay arith i (some w) = arith.min (arith.max (p.delay arith i none) w) p.maxDelay :=
    if_neg (mt (exact.isZero hw).mp hzero)
  rw [hdelay, (exact.min hlong hmax).2, hvalue, value_delay_none exact hbase hmax]

variable [IsStrictOrderedRing κ]

theorem backoff_nonneg (hbase : 0 ≤ value p.baseDelay) (hmax : 0 ≤ value p.maxDelay) : 0 ≤ p.backoff value i :=
  le_min (mul_nonneg hbase (pow_nonneg zero_le_two i)) hmax

theorem backoff_mono (hbase : 0 ≤ value p.baseDelay) : Monotone (p.backoff value) := by
  intro i j hij
  apply min_le_min_right
  exact mul_le_mul_of_nonneg_left (pow_le_pow_right₀ one_le_two hij) hbase

variable (exact : arith.Exact sound value) (hbase : sound p.baseDelay) (hmax : sound p.maxDelay)
  (hbase0 : 0 ≤ value p.baseDelay) (hmax0 : 0 ≤ value p.maxDelay)

include exact hbase hmax hbase0 hmax0

/-- **A delay in terms of the values.**  A wish counts only if it is for more than nothing. -/
theorem value_delay {r : Option ν} (hr : ∀ w, r = some w → sound w) :
    (∀ w, r = some w → 0 < value w →
      value (p.delay arith i r) = min (max (p.backoff value i) (value w)) (value p.maxDelay)) ∧
    ((∀ w, r = some w → ¬0 < value w) → value (p.delay arith i r) = p.backoff value i) := by
  refine ⟨fun w hw hpos => ?_, fun hnone => ?_⟩
  · rw [hw, value_delay_some exact hbase hmax (hr w hw) hpos.ne']
  · cases r with
    | none => exact value_delay_none exact hbase hmax
    | some w =>
      have hw : value w ≤ 0 := not_lt.mp (hnone w rfl)
      by_cases hzero : value w = 0
      · have hdelay : p.delay arith i (some w) = p.delay arith i none := if_pos ((exact.isZero (hr w rfl)).mpr hzero)
        rw [hdelay, value_delay_none exact hbase hmax]
      · -- a wish for less than nothing is not zero, but never above the doubled delay
        rw [value_delay_some exact hbase hmax (hr w rfl) hzero,
          max_eq_left (hw.trans (backoff_nonneg hbase0 hmax0)), min_eq_left backoff_le_longest]

variable {o : RetryOutcome ν α σ} (h : p.Scheduled arith wish call 0 n s o)
  (hwish : ∀ f w, .error f ∈ history call n s → wish f = some w → sound w)

include h hwish

/-- How long the pauses of a schedule last. -/
theorem Scheduled.value_pause {pause : Pause ν} (hpause : o.pauses[i]? = some pause) :
    (∀ r, wish pause.cause = some r → 0 < value r →
      value pause.delay = min (max (p.backoff value i) (value r)) (value p.maxDelay)) ∧
    ((∀ r, wish pause.cause = some r → ¬0 < value r) → value pause.delay = p.backoff value i) := by
  obtain ⟨-, hcause, hdelay⟩ := h.pause i pause hpause
  rw [Nat.zero_add] at hdelay
  rw [hdelay]
  apply value_delay exact hbase hmax hbase0 hmax0
  exact fun w hw => hwish _ w (List.mem_of_getElem? hcause) hw

/-- They are no shorter than the doubled delay and no longer than the longest. -/
theorem Scheduled.pause_bounds {pause : Pause ν} (hpause : o.pauses[i]? = some pause) :
    p.backoff value i ≤ value pause.delay ∧ value pause.delay ≤ value p.maxDelay := by
  obtain ⟨hlong, hshort⟩ := h.value_pause exact hbase hmax hbase0 hmax0 hwish hpause
  by_cases hwished : ∃ r, wish pause.cause = some r ∧ 0 < value r
  · obtain ⟨r, hr, hpos⟩ := hwished
    rw [hlong r hr hpos]
    exact ⟨le_wished _, min_le_right _ _⟩
  · rw [hshort fun r hr hpos => hwished ⟨r, hr, hpos⟩]
    exact ⟨le_refl _, backoff_le_longest⟩

/-- **Without wishes the pauses never get shorter.** -/
theorem Scheduled.pairwise_pauses
    (hnone : ∀ pause ∈ o.pauses, ∀ r, wish pause.cause = some r → ¬0 < value r) :
    (o.pauses.map (value ·.delay)).Pairwise (· ≤ ·) := by
  have hvalue (k : Nat) (hk : k < o.pauses.length) : value (o.pauses[k].delay) = p.backoff value k := by
    have hpause : o.pauses[k]? = some o.pauses[k] := List.getElem?_eq_getElem hk
    exact (h.value_pause exact hbase hmax hbase0 hmax0 hwish hpause).2 (hnone _ (List.getElem_mem hk))
  -- each pause is the doubled delay, which grows
  rw [List.pairwise_iff_getElem]
  intro i j hi hj hij
  rw [List.length_map] at hi hj
  rw [List.getElem_map, List.getElem_map, hvalue i hi, hvalue j hj]
  exact backoff_mono hbase0 hij.le

omit exact hbase hmax hbase0 hmax0 h hwish

/-- **The requests keep the schedule.**  Of at least one attempt allowed, as many are made as there are faults to be
    repeated after at the beginning of the answers, and one more, unless that is too many.  The last answer asked for is
    the result.  One pause stands between two attempts, with the fault before it as its cause; the pause is the
    doubled delay, or what the fault wishes for if that is longer, but never more than the longest delay, so that
    pauses never get shorter as long as no fault has a wish.  The arithmetic is taken to be exact on the delays. -/
theorem requests_keep_the_schedule (exact : arith.Exact sound value) (hattempts : 1 ≤ p.attempts)
    (hbase : sound p.baseDelay) (hmax : sound p.maxDelay) (hbase0 : 0 ≤ value p.baseDelay)
    (hmax0 : 0 ≤ value p.maxDelay) (call : σ → Except ServiceFault α × σ) (s : σ)
    (hwish : ∀ f w, .error f ∈ history call p.attempts.toNat s → wish f = some w → sound w) :
    let o := p.run arith wish call s
    let answers := history call p.attempts.toNat s
    o.calls = min p.attempts.toNat (1 + (answers.takeWhile p.repeatsAfter).length) ∧
    answers[o.calls - 1]? = some o.result ∧
    o.state = stateAfter call o.calls s ∧
    o.pauses.length = o.calls - 1 ∧
    (∀ i pause, o.pauses[i]? = some pause →
      pause.attempt = i + 1 ∧ answers[i]? = some (.error pause.cause) ∧
      (∀ r, wish pause.cause = some r → 0 < value r → value pause.delay
        = min (max (min (value p.baseDelay * 2 ^ i) (value p.maxDelay)) (value r)) (value p.maxDelay)) ∧
      ((∀ r, wish pause.cause = some r → ¬0 < value r) →
        value pause.delay = min (value p.baseDelay * 2 ^ i) (value p.maxDelay)) ∧
      min (value p.baseDelay * 2 ^ i) (value p.maxDelay) ≤ value pause.delay ∧
      value pause.delay ≤ value p.maxDelay) ∧
    ((∀ pause ∈ o.pauses, ∀ r, wish pause.cause = some r → ¬0 < value r) →
      (o.pauses.map (value ·.delay)).Pairwise (· ≤ ·)) := by
  intro o answers
  have hschedule : p.Scheduled arith wish call 0 p.attempts.toNat s o := scheduled_run hattempts call s
  have hcount : o.pauses.length + 1 = o.calls := by
    have hpauses := hschedule.pauses
    -- a pause stands between two calls, so there is one less of them than calls
    omega
  refine ⟨?_, ?_, ?_, ?_, fun i pause hpause => ?_, ?_⟩
  · rw [hschedule.calls, Nat.zero_add, leading]
  · rw [← hcount]
    exact hschedule.result
  · rw [← hcount]
    exact hschedule.state
  · omega
  · obtain ⟨hattempt, hcause, -⟩ := hschedule.pause i pause hpause
    obtain ⟨hlong, hshort⟩ := hschedule.value_pause exact hbase hmax hbase0 hmax0 hwish hpause
    rw [Nat.zero_add] at hattempt
    exact ⟨hattempt, hcause, hlong, hshort, hschedule.pause_bounds exact hbase hmax hbase0 hmax0 hwish hpause⟩
  · exact hschedule.pairwise_pauses exact hbase hmax hbase0 hmax0 hwish

/-- Of five requests four are repeated, after faults without a wish, with one for no delay, for less than none and for
    far too long a one. -/
theorem five_requests_keep_the_schedule :
    let p : RetryPolicy Number := ⟨5, .int 2, .int 10, ServiceFault.isPassing⟩
    let call : List (Except ServiceFault Nat) → Except ServiceFault Nat × List (Except ServiceFault Nat) :=
      fun answers => (answers.headD (.error noAttempt), answers.tail)
    let busy (after : Option Number) : Except ServiceFault Nat := .error (.retryable "busy" 503 after)
    let s := [busy none, busy (some (.int 0)), busy (some (.int (-3))), busy (some (.int 100)), .ok 7]
    let o := p.run Number.delays ServiceFault.retryAfter? call s
    o.calls = 5 ∧ o.result = .ok 7 ∧ o.pauses.length = 4 ∧
    (∀ pause, o.pauses[2]? = some pause → pause.attempt = 3 ∧ pause.delay.intValue = 8) ∧
    ∀ pause, o.pauses[3]? = some pause → pause.attempt = 4 ∧ pause.delay.intValue = 10 := by
  intro p call busy s o
  have hwish (f : ServiceFault) (w : Number) (hf : .error f ∈ history call p.attempts.toNat s)
      (hw : f.retryAfter? = some w) : ∃ n, w = .int n := by
    have hs : history call p.attempts.toNat s = s := rfl
    rw [hs] at hf
    simp only [s, busy, List.mem_cons, List.not_mem_nil, Except.error.injEq, reduceCtorEq, or_false] at hf
    rcases hf with rfl | rfl | rfl | rfl <;> cases hw <;> exact ⟨_, rfl⟩
  obtain ⟨hcalls, hresult, -, hlength, hpause, -⟩ := requests_keep_the_schedule exact_delays_int (p := p)
    (by decide) ⟨2, rfl⟩ ⟨10, rfl⟩ (by decide) (by decide) call s hwish
  refine ⟨hcalls, (Option.some.inj hresult).symm, hlength, fun pause hthird => ?_, fun pause hfourth => ?_⟩
  · obtain ⟨hattempt, hcause, -, hshort, -⟩ := hpause 2 pause hthird
    refine ⟨hattempt, hshort fun r hr => ?_⟩
    -- the third fault wishes for less than nothing
    rw [← Except.error.inj (Option.some.inj hcause)] at hr
    cases hr
    decide
  · obtain ⟨hattempt, hcause, hlong, -⟩ := hpause 3 pause hfourth
    refine ⟨hattempt, hlong (.int 100) ?_ (by decide)⟩
    rw [← Except.error.inj (Option.some.inj hcause)]
    rfl

end Delays

end RetryPolicy

end Docsmith
