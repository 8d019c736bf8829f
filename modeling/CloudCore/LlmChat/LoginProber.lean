import Mathlib.Data.List.Nodup
import Mathlib.Data.Rat.Floor
import Mathlib.Tactic.Linarith

/-!
# Logins with one-time codes

The login prober of `advice_runner.py` logs in over SSH and through PAM, before an answer's steps and
after them, and sends a code of the student's secret where it is asked for one.  Times are exact, and
by the machine's clock.  What the machine asks for, and when it checks an answer, is outside.

## Main definitions

* `codeStep`, `pace` — the time step of a code, and the waiting between logins.
* `Attempt`, `Timed` — logins one after the other.
* `Serves` — a server that forbids reuse and allows one step of skew.
* `Faultless` — no code is used twice, and none is refused.

## Main results

* `steps_apart` — the pauses move the time step on by a step for each round.
* `faultless_iff` — **when no login fails by the prober's own doing.**
-/

namespace CloudCore
namespace LoginProber

/-- The counter of `totp`. -/
def counter (t : ℚ) : ℤ := ⌊t / 30⌋

/-- The time step of the right code that `_code` computes at a time, after so many logins. -/
def codeStep (attempts : ℕ) (t : ℚ) : ℤ := counter (t + 30 * (((attempts % 3 : ℕ) : ℚ) - 1))

/-- `_pace`: when the next login may begin. -/
def pace (attempts : ℕ) (t : ℚ) : ℚ := if (attempts + 1) % 3 = 0 then t + 31 else t

inductive Via where
  | ssh
  | pam
  deriving DecidableEq

/-- What a prompt asks for: by the words in it a code, or the password. -/
inductive Prompt where
  | code
  | password
  deriving DecidableEq

/-- A login of a prober with a secret. -/
structure Attempt where
  via : Via
  wrong : Bool
  /-- When the code is computed. -/
  computed : ℚ
  /-- What the machine asks, and when it checks the answer. -/
  prompts : List (Prompt × ℚ)
  ended : ℚ

/-- The prompts that are answered; `pam` stops at six. -/
def Attempt.answered (a : Attempt) : List (Prompt × ℚ) :=
  match a.via with
  | .ssh => a.prompts
  | .pam => a.prompts.take 6

/-- When the right codes of a login are checked. -/
def Attempt.checks (a : Attempt) : List ℚ :=
  if a.wrong then [] else (a.answered.filter (·.1 = .code)).map Prod.snd

/-- The right codes of a login, which are all the same: their time steps, and when they are checked. -/
def sent (attempts : ℕ) (a : Attempt) : List (ℤ × ℚ) := a.checks.map (codeStep attempts a.computed, ·)

/-- The right codes of logins, the first of which has so many before it. -/
def allSent (n : ℕ) (as : List Attempt) : List (ℤ × ℚ) := (as.zipIdx n).flatMap fun (a, m) => sent m a

/-- Logins one after the other, from a time on. -/
def Timed : ℕ → ℚ → List Attempt → Prop
  | _, _, [] => True
  | n, now, a :: as =>
    now ≤ a.computed ∧ (∀ p ∈ a.prompts, a.computed ≤ p.2 ∧ p.2 ≤ a.ended) ∧ a.computed ≤ a.ended ∧
      Timed (n + 1) (pace n a.ended) as

/-- A server takes every code: it is of a step next to the current one, and has not been used. -/
def Serves : List ℤ → List (ℤ × ℚ) → Prop
  | _, [] => True
  | used, (s, t) :: codes => |s - counter t| ≤ 1 ∧ s ∉ used ∧ Serves (s :: used) codes

/-- No code is used twice, each is of a step next to the one in which it is computed, and the server
takes them all. -/
structure Faultless (n : ℕ) (as : List Attempt) : Prop where
  distinct : ((allSent n as).map Prod.fst).Nodup
  near : ∀ p ∈ as.zipIdx n, |codeStep p.2 p.1.computed - counter p.1.computed| ≤ 1
  accepted : Serves [] (allSent n as)

/-- The second login is in one of the next two rounds, one or two places earlier in it, and the time
step has moved on by as many. -/
def Clash (p q : Attempt × ℕ) : Prop :=
  p.1.checks ≠ [] ∧ q.1.checks ≠ [] ∧ q.2 ≤ p.2 + 4 ∧ q.2 % 3 < p.2 % 3 ∧
    counter q.1.computed = counter p.1.computed + ((p.2 % 3 : ℕ) - (q.2 % 3 : ℕ))

instance (p q : Attempt × ℕ) : Decidable (Clash p q) :=
  inferInstanceAs (Decidable (_ ∧ _ ∧ _ ∧ _ ∧ _))

/-- The logins that go well. -/
structure Careful (n : ℕ) (as : List Attempt) : Prop where
  once : ∀ a ∈ as, a.checks.length ≤ 1
  apart : (as.zipIdx n).Pairwise fun p q => ¬Clash p q
  soon : ∀ p ∈ as.zipIdx n, ∀ t ∈ p.1.checks, counter t ≤ counter p.1.computed + (p.2 % 3 : ℕ)

/-! ### Time steps -/

theorem codeStep_eq (n : ℕ) (t : ℚ) : codeStep n t = counter t + (n % 3 : ℕ) - 1 := by
  have hshift : (t + 30 * (((n % 3 : ℕ) : ℚ) - 1)) / 30 = t / 30 + (((n % 3 : ℕ) : ℤ) - 1 : ℤ) := by
    rw [Int.cast_sub, Int.cast_natCast, Int.cast_one]
    ring
  rw [codeStep, counter, counter, hshift, Int.floor_add_intCast]
  ring

theorem counter_mono {s t : ℚ} (h : s ≤ t) : counter s ≤ counter t :=
  Int.floor_le_floor (div_le_div_of_nonneg_right h (by norm_num))

/-- A pause for each of some rounds. -/
theorem counter_add_le {s t : ℚ} (k : ℕ) (h : s + 31 * k ≤ t) : counter s + k ≤ counter t := by
  have hle : s / 30 + (k : ℤ) ≤ t / 30 := by
    have hk : (0 : ℚ) ≤ k := Nat.cast_nonneg k
    push_cast
    linarith
  rw [counter, counter, ← Int.floor_add_intCast]
  exact Int.floor_le_floor hle

theorem near_codeStep (n : ℕ) (t : ℚ) : |codeStep n t - counter t| ≤ 1 := by
  rw [codeStep_eq, abs_le]
  omega

/-! ### Logins one after the other -/

variable {n : ℕ} {now : ℚ} {as : List Attempt} {a : Attempt}

theorem pace_eq (n : ℕ) (t : ℚ) : pace n t = t + 31 * (((n + 1) / 3 - n / 3 : ℕ) : ℚ) := by
  unfold pace
  split
  · next h =>
    have hstep : (n + 1) / 3 - n / 3 = 1 := by omega
    rw [hstep, Nat.cast_one, mul_one]
  · next h =>
    have hstep : (n + 1) / 3 - n / 3 = 0 := by omega
    rw [hstep, Nat.cast_zero, mul_zero, add_zero]

/-- What a login comes after. -/
theorem Timed.le_computed (h : Timed n now as) {p : Attempt × ℕ} (hp : p ∈ as.zipIdx n) :
    n ≤ p.2 ∧ now + 31 * ((p.2 / 3 - n / 3 : ℕ) : ℚ) ≤ p.1.computed := by
  induction as generalizing n now with
  | nil => cases hp
  | cons a as ih =>
    obtain ⟨hnow, -, hended, hrest⟩ := h
    rw [List.zipIdx_cons] at hp
    obtain rfl | hp := List.mem_cons.mp hp
    · refine ⟨le_refl n, ?_⟩
      show now + 31 * ((n / 3 - n / 3 : ℕ) : ℚ) ≤ a.computed
      rw [Nat.sub_self, Nat.cast_zero, mul_zero, add_zero]
      exact hnow
    · obtain ⟨hle, hlater⟩ := ih hrest hp
      rw [pace_eq, add_assoc, ← mul_add, ← Nat.cast_add] at hlater
      have hrounds : (n + 1) / 3 - n / 3 + (p.2 / 3 - (n + 1) / 3) = p.2 / 3 - n / 3 := by omega
      rw [hrounds] at hlater
      exact ⟨by omega, by linarith⟩

/-- **The pauses move the time step on by a step for each round.** -/
theorem steps_apart (h : Timed n now as) :
    (as.zipIdx n).Pairwise fun p q =>
      p.2 < q.2 ∧ counter p.1.computed + ((q.2 / 3 - p.2 / 3 : ℕ) : ℤ) ≤ counter q.1.computed := by
  induction as generalizing n now with
  | nil => exact .nil
  | cons a as ih =>
    obtain ⟨-, -, hended, hrest⟩ := h
    rw [List.zipIdx_cons]
    refine List.pairwise_cons.mpr ⟨fun q hq => ?_, ih hrest⟩
    obtain ⟨hle, hlater⟩ := hrest.le_computed hq
    refine ⟨hle, counter_add_le _ ?_⟩
    rw [pace_eq, add_assoc, ← mul_add, ← Nat.cast_add] at hlater
    have hrounds : (n + 1) / 3 - n / 3 + (q.2 / 3 - (n + 1) / 3) = q.2 / 3 - n / 3 := by omega
    rw [hrounds] at hlater
    linarith

theorem Timed.computed_le (h : Timed n now as) (ha : a ∈ as) {t : ℚ} (ht : t ∈ a.checks) :
    a.computed ≤ t := by
  have hprompts : ∀ p ∈ a.prompts, a.computed ≤ p.2 := by
    clear ht
    induction as generalizing n now with
    | nil => cases ha
    | cons b as ih =>
      obtain ⟨-, hchecked, -, hrest⟩ := h
      obtain rfl | ha := List.mem_cons.mp ha
      · exact fun p hp => (hchecked p hp).1
      · exact ih hrest ha
  have hanswered : ∀ p ∈ a.answered, p ∈ a.prompts := by
    intro p hp
    unfold Attempt.answered at hp
    split at hp
    · exact hp
    · exact List.mem_of_mem_take hp
  unfold Attempt.checks at ht
  split at ht
  · cases ht
  · obtain ⟨p, hp, rfl⟩ := List.mem_map.mp ht
    exact hprompts p (hanswered p (List.mem_of_mem_filter hp))

/-! ### The codes of all logins -/

theorem serves_iff {used : List ℤ} {codes : List (ℤ × ℚ)} :
    Serves used codes ↔
      (codes.map Prod.fst).Nodup ∧ (∀ c ∈ codes, c.1 ∉ used) ∧ ∀ c ∈ codes, |c.1 - counter c.2| ≤ 1 := by
  induction codes generalizing used with
  | nil => simp [Serves]
  | cons c codes ih =>
    rw [Serves, ih, List.map_cons, List.nodup_cons]
    simp only [List.mem_cons, not_or, forall_eq_or_imp, List.mem_map, not_exists, not_and]
    constructor
    · rintro ⟨hnear, hnew, hnodup, hused, hrest⟩
      exact ⟨⟨fun d hd heq => (hused d hd).1 heq, hnodup⟩, ⟨hnew, fun d hd => (hused d hd).2⟩, hnear, hrest⟩
    · rintro ⟨⟨hfst, hnodup⟩, ⟨hnew, hused⟩, hnear, hrest⟩
      exact ⟨hnear, hnew, hnodup, fun d hd => ⟨hfst d hd, hused d hd⟩, hrest⟩

theorem map_fst_sent (n : ℕ) (a : Attempt) :
    (sent n a).map Prod.fst = List.replicate a.checks.length (codeStep n a.computed) := by
  rw [sent, List.map_map]
  exact List.map_const' ..

/-- Relations that agree on the pairs of a list. -/
theorem pairwise_iff {α : Type} {R S T : α → α → Prop} {l : List α} (hT : l.Pairwise T)
    (h : ∀ x y, T x y → (R x y ↔ S x y)) : l.Pairwise R ↔ l.Pairwise S :=
  ⟨fun hR => (hR.and hT).imp fun hp => (h _ _ hp.2).mp hp.1,
    fun hS => (hS.and hT).imp fun hp => (h _ _ hp.2).mpr hp.1⟩

/-- Two logins use one code if they clash. -/
theorem not_disjoint_iff {p q : Attempt × ℕ} (hlt : p.2 < q.2)
    (hapart : counter p.1.computed + ((q.2 / 3 - p.2 / 3 : ℕ) : ℤ) ≤ counter q.1.computed) :
    ((sent p.2 p.1).map Prod.fst).Disjoint ((sent q.2 q.1).map Prod.fst) ↔ ¬Clash p q := by
  rw [map_fst_sent, map_fst_sent, List.disjoint_left]
  simp only [List.mem_replicate, codeStep_eq]
  constructor
  · rintro h ⟨hp, hq, -, -, heq⟩
    refine h ⟨fun hnil => hp (List.length_eq_zero_iff.mp hnil), rfl⟩
      ⟨fun hnil => hq (List.length_eq_zero_iff.mp hnil), ?_⟩
    omega
  · rintro h s ⟨hp, rfl⟩ ⟨hq, heq⟩
    refine h ⟨fun hnil => hp (by rw [hnil]; rfl), fun hnil => hq (by rw [hnil]; rfl), ?_, ?_, ?_⟩
    · omega
    · omega
    · omega

/-- **No login fails by the prober's own doing if and only if every right code is asked for once, is
checked before the time step has moved on by more than the login's place in its round, and no two logins
clash.** -/
theorem faultless_iff (n : ℕ) (now : ℚ) (as : List Attempt) (h : Timed n now as) :
    Faultless n as ↔ Careful n as := by
  have hdistinct : ((allSent n as).map Prod.fst).Nodup ↔
      (∀ a ∈ as, a.checks.length ≤ 1) ∧ (as.zipIdx n).Pairwise fun p q => ¬Clash p q := by
    rw [allSent, List.map_flatMap, List.nodup_flatMap]
    refine and_congr ?_ (pairwise_iff (steps_apart h) fun p q hpq => not_disjoint_iff hpq.1 hpq.2)
    simp only [map_fst_sent, List.nodup_replicate]
    constructor
    · intro hall a ha
      obtain ⟨m, hm⟩ : ∃ m, (a, m) ∈ as.zipIdx n := by
        rw [← List.zipIdx_map_fst n as] at ha
        obtain ⟨⟨_, m⟩, hm, rfl⟩ := List.mem_map.mp ha
        exact ⟨m, hm⟩
      exact hall _ hm
    · exact fun hall p hp => hall p.1 (List.fst_mem_of_mem_zipIdx hp)
  have hsoon : (∀ c ∈ allSent n as, |c.1 - counter c.2| ≤ 1) ↔
      ∀ p ∈ as.zipIdx n, ∀ t ∈ p.1.checks, counter t ≤ counter p.1.computed + (p.2 % 3 : ℕ) := by
    have hone : ∀ p ∈ as.zipIdx n, ∀ t ∈ p.1.checks,
        (|codeStep p.2 p.1.computed - counter t| ≤ 1 ↔ counter t ≤ counter p.1.computed + (p.2 % 3 : ℕ)) := by
      intro p hp t ht
      have hmono := counter_mono (h.computed_le (List.fst_mem_of_mem_zipIdx hp) ht)
      rw [codeStep_eq, abs_le]
      omega
    constructor
    · intro hall p hp t ht
      have hmem : (codeStep p.2 p.1.computed, t) ∈ allSent n as :=
        List.mem_flatMap.mpr ⟨p, hp, List.mem_map_of_mem ht⟩
      have hnear := hall (codeStep p.2 p.1.computed, t) hmem
      exact (hone p hp t ht).mp hnear
    · intro hall c hc
      obtain ⟨p, hp, hc⟩ := List.mem_flatMap.mp hc
      obtain ⟨t, ht, rfl⟩ := List.mem_map.mp hc
      exact (hone p hp t ht).mpr (hall p hp t ht)
  constructor
  · rintro ⟨hnodup, -, haccepted⟩
    obtain ⟨honce, hapart⟩ := hdistinct.mp hnodup
    exact ⟨honce, hapart, hsoon.mp (serves_iff.mp haccepted).2.2⟩
  · rintro ⟨honce, hapart, hchecked⟩
    have hnodup := hdistinct.mpr ⟨honce, hapart⟩
    exact ⟨hnodup, fun p _ => near_codeStep p.2 p.1.computed,
      serves_iff.mpr ⟨hnodup, fun _ _ => List.not_mem_nil, hsoon.mpr hchecked⟩⟩

/-- A login over SSH that is asked for a code at once. -/
def quickLogin (t : ℚ) : Attempt := ⟨.ssh, false, t, [(.code, t)], t⟩

/-- Two rounds: in each a step apart by the place, and the second begins in the step that the first ends
in, three steps on. -/
theorem faultless_quickLogin : Faultless 0 ([300, 301, 302, 394, 395, 396].map quickLogin) := by
  have htimed : Timed 0 300 ([300, 301, 302, 394, 395, 396].map quickLogin) := by
    simp [Timed, quickLogin, pace]
    norm_num
  refine (faultless_iff 0 300 _ htimed).mpr ⟨?_, ?_, ?_⟩
  · decide
  · with_unfolding_all decide
  · with_unfolding_all decide

/-- Four logins with nothing between them but the pause: the last is in the step behind that of the
second, and first in its round. -/
theorem code_used_twice : ¬∀ n now as, Timed n now as → Faultless n as := by
  intro h
  have htimed : Timed 0 300 ([300, 301, 302, 334].map quickLogin) := by
    simp [Timed, quickLogin, pace]
    norm_num
  have hsteps : (allSent 0 ([300, 301, 302, 334].map quickLogin)).map Prod.fst = [9, 10, 11, 10] := by
    with_unfolding_all decide
  have hnodup := (h _ _ _ htimed).distinct
  rw [hsteps] at hnodup
  exact absurd hnodup (by decide)

end LoginProber
end CloudCore
