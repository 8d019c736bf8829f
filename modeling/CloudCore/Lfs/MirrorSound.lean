import CloudCore.Lfs.Mirror
import Mathlib.Data.List.Basic

/-!
# What the mirror holds

## Main definitions

* `Inv` — what holds in every state.
* `Guard` — what is known where a command is issued.
* `After` — what a file's run leaves.

## Main results

* `faithful_of_reaches` — **the promises are kept in every run that is faithful.**
* `outdated` — a file that is present is accepted for another checksum.
-/

namespace CloudCore
namespace Mirror

open Effect
open Effect.Program (attempt)

variable {H : Host} {s s' s'' : State}

/-! ### Paths -/

theorem isPart_partOf (path : String) : IsPart (partOf path) := by
  unfold IsPart partOf
  rw [String.toList_append]
  exact List.suffix_append ..

theorem not_final_part {path : String} (h : IsPart path) : ¬Final path := fun hf => hf.1 h

theorem not_final_sig (e : Entry) (m : Manifest) : ¬Final (sigOf e m) := by
  intro hf
  refine hf.2 ?_
  unfold sigOf
  simp only [String.toList_append, ← List.append_assoc]
  exact List.suffix_append ..

/-! ### The invariant -/

/-- The records of first downloads are those of bodies that were served. -/
def Known (H : Host) (served : List (String × Bytes)) (lock : Lock) : Prop :=
  ∀ path rec, lock path = some rec → rec.verified.IsFirst →
    ∃ c, (rec.source, c) ∈ served ∧ H.sha256 c = rec.sha256

/-- **The invariant.** -/
structure Inv (H : Host) (s : State) : Prop where
  placed : ∀ path c, Final path → s.files path = some c →
    ∃ p, s.placed path = some p ∧ p.content = c ∧ p.Passed H
  known : ∀ lock, s.mirror = some lock → Known H s.served lock

/-- What is known where a command is issued. -/
def Guard (H : Host) (s : State) : Cmd → Prop
  | .copy _ path _ _ => ¬Final path
  | .replace _ dst => ¬Final dst
  | .place e known src _ => ∀ c, s.files src = some c → Placement.Passed H ⟨e, c, known⟩
  | .writeMirror lock => Known H s.served lock
  | _ => True

theorem Known.mono {lock : Lock} {served served' : List (String × Bytes)}
    (h : Known H served lock) (hserved : ∀ x ∈ served, x ∈ served') : Known H served' lock := by
  intro path rec hrec hfirst
  obtain ⟨c, hc, hsha⟩ := h path rec hrec hfirst
  exact ⟨c, hserved _ hc, hsha⟩

theorem Inv.congr (h : Inv H s) (hfiles : ∀ path, Final path → ∀ c, s'.files path = some c →
      s.files path = some c)
    (hplaced : s'.placed = s.placed) (hmirror : s'.mirror = s.mirror)
    (hserved : ∀ x ∈ s.served, x ∈ s'.served) : Inv H s' where
  placed path c hf hc := hplaced ▸ h.placed path c hf (hfiles path hf c hc)
  known lock hlock := (h.known lock (hmirror ▸ hlock)).mono hserved

theorem files_move {src dst path : String} {c : Bytes} (hc : s.move src dst path = some c) :
    path ≠ src ∧ (path = dst ∧ s.files src = some c ∨ path ≠ dst ∧ s.files path = some c) := by
  unfold State.move at hc
  by_cases hsrc : path = src
  · subst hsrc
    rw [Function.update_self] at hc
    cases hc
  · rw [Function.update_of_ne hsrc] at hc
    refine ⟨hsrc, ?_⟩
    by_cases hdst : path = dst
    · subst hdst
      rw [Function.update_self] at hc
      exact .inl ⟨rfl, hc⟩
    · rw [Function.update_of_ne hdst] at hc
      exact .inr ⟨hdst, hc⟩

/-- **Every command keeps the invariant**, where its guard holds. -/
theorem inv_of_guard {c : Cmd} {a : c.Ans} (hx : exec H s c a s') (hg : Guard H s c)
    (h : Inv H s) : Inv H s' := by
  have hkeep : ∀ x ∈ s.served, x ∈ s.served := fun _ hx => hx
  cases c with
  | readManifest args =>
    cases a with
    | ok m =>
      obtain rfl := hx
      exact h.congr (fun _ _ _ hc => hc) rfl rfl hkeep
    | error e =>
      obtain rfl := hx
      exact h.congr (fun _ _ _ hc => hc) rfl rfl hkeep
  -- a download goes to a part, which is no file of the mirror
  | copy url path append purpose =>
    obtain rfl := hx
    refine h.congr (fun q hq c hc => ?_) rfl rfl fun _ => List.mem_cons_of_mem _
    have hne : q ≠ path := by
      rintro rfl
      exact hg hq
    simpa only [Function.update_of_ne hne] using hc
  | unlink path =>
    cases a with
    | ok _ =>
      obtain rfl := hx
      refine h.congr (fun q _ c hc => ?_) rfl rfl hkeep
      by_cases heq : q = path
      · subst heq
        simp only [Function.update_self, reduceCtorEq] at hc
      · simpa only [Function.update_of_ne heq] using hc
    | error e => exact hx ▸ h
  | replace src dst =>
    cases a with
    | ok _ =>
      obtain rfl := hx
      refine h.congr (fun q hq c hc => ?_) rfl rfl hkeep
      obtain ⟨-, ⟨rfl, -⟩ | ⟨-, hc⟩⟩ := files_move hc
      · exact absurd hq hg
      · exact hc
    | error e => exact hx ▸ h
  -- only here a file gets its name, and it has passed
  | place e known src dst =>
    cases a with
    | ok _ =>
      obtain ⟨c, hsrc, rfl⟩ := hx
      refine ⟨fun path c' hf hc => ?_, h.known⟩
      obtain ⟨-, ⟨rfl, hc'⟩ | ⟨hne, hc'⟩⟩ := files_move hc
      · obtain rfl := Option.some.inj (hsrc.symm.trans hc')
        exact ⟨_, Function.update_self .., rfl, hg c hsrc⟩
      · simp only [Function.update_of_ne hne]
        exact h.placed path c' hf hc'
    | error e => exact hx ▸ h
  | writeMirror lock =>
    cases a with
    | ok _ =>
      obtain rfl := hx
      refine ⟨h.placed, fun lock' hlock => ?_⟩
      obtain rfl := Option.some.inj hlock
      exact hg
    | error e => exact hx ▸ h
  | readMirror | «exists» | present | sha256 | md5 | verify =>
    obtain ⟨-, rfl⟩ := hx
    exact h
  | size | mkdir | request | writeManifest =>
    obtain rfl := hx
    exact h

/-! ### The rules -/

/-- What the commands do, as far as a run admits it. -/
abbrev Sem (H : Host) (s : State) (c : Cmd) (a : c.Ans) (s' : State) : Prop :=
  exec H s c a s' ∧ Faithful H s (.call () c a) ∧ Inv H s

/-- The weakest precondition of a program. -/
abbrev mwp {α : Type} (H : Host) (p : Code α) (Q : α → State → Prop) (E : Failure → State → Prop)
    (s : State) : Prop :=
  Program.wp (F := sig) (Sem H) Eq (fun s c _ _ => Guard H s c) p Q E s

variable {α β : Type} {Q : α → State → Prop} {E : Failure → State → Prop}

theorem mwp_bind {p : Code β} {f : β → Code α} {B : β → State → Prop}
    (h : mwp H p B E s) (hf : ∀ b s, B b s → mwp H (f b) Q E s) : mwp H (p >>= f) Q E s :=
  Program.wp_after h hf

/-- A command that may raise. -/
theorem mwp_try {c : Cmd} (hans : c.Ans = Except Failure β) {B : β → State → Prop}
    (h : ∀ a s', Sem H s c a s' → Guard H s c ∧
      (∀ b, hans ▸ a = Except.ok b → B b s') ∧ ∀ e, hans ▸ a = Except.error e → E e s') :
    mwp H (tryStep c hans) B E s := by
  rintro s₁ rfl a s' hx
  obtain ⟨hg, hok, herr⟩ := h a s' hx
  exact ⟨hg, Program.wp_lift.mpr ⟨hok, herr⟩⟩

/-- Only some files are touched. -/
structure Only (P : String → Prop) (s s' : State) : Prop where
  files : ∀ path, ¬P path → s'.files path = s.files path
  mirror : s'.mirror = s.mirror
  run : s'.run = s.run
  served : ∀ x ∈ s.served, x ∈ s'.served

variable {P P' : String → Prop}

theorem Only.refl (P : String → Prop) (s : State) : Only P s s := ⟨fun _ _ => rfl, rfl, rfl, fun _ h => h⟩

theorem Only.trans (h : Only P s s') (h' : Only P s' s'') : Only P s s'' :=
  ⟨fun path hp => (h'.files path hp).trans (h.files path hp), h'.mirror.trans h.mirror,
    h'.run.trans h.run, fun x hx => h'.served x (h.served x hx)⟩

theorem Only.mono (h : Only P s s') (hP : ∀ path, P path → P' path) : Only P' s s' :=
  ⟨fun path hp => h.files path fun hpath => hp (hP path hpath), h.mirror, h.run, h.served⟩

/-- What a file is known to be after its download. -/
def Fetch (purpose : Purpose) (url part : String) (s : State) : Prop :=
  purpose = .first → ∃ c, s.files part = some c ∧ (url, c) ∈ s.served

/-- A transfer touches the partial download alone; that of a first download is whole. -/
theorem mwp_receive {url part : String} {append : Bool} {purpose : Purpose} (hpart : IsPart part) :
    mwp H (receive url part append purpose)
      (fun _ s' => Only (· = part) s s' ∧ Fetch purpose url part s')
      (fun _ s' => Only (· = part) s s') s := by
  rintro s₁ rfl t s₂ ⟨rfl, hfaithful, -⟩
  refine ⟨not_final_part hpart, ?_⟩
  have honly : Only (· = part) s { s with
      files := Function.update s.files part (some (s.received part append t))
      served := (url, t.body) :: s.served } :=
    ⟨fun path hne => Function.update_of_ne hne .., rfl, rfl, fun _ => List.mem_cons_of_mem _⟩
  dsimp only [Program.bind]
  cases hended : t.ended with
  | error e => exact honly
  | ok _ =>
    refine ⟨honly, fun hfirst => ?_⟩
    subst hfirst
    refine ⟨_, Function.update_self .., ?_⟩
    rw [hfaithful hended]
    exact List.mem_cons_self

/-- One attempt. -/
theorem mwp_fetch {url part : String} {purpose : Purpose} (hpart : IsPart part) :
    mwp H (fetch url part purpose)
      (fun r s' => Only (· = part) s s' ∧ (r = .done → Fetch purpose url part s'))
      (fun _ s' => Only (· = part) s s') s := by
  refine mwp_bind (B := fun _ s' => s' = s) (mwp_try rfl fun a s' hx => ?_) fun n s₁ h₁ => ?_
  · obtain ⟨rfl, -⟩ := hx
    exact ⟨trivial, fun _ _ => rfl, fun _ _ => .refl _ _⟩
  · subst h₁
    refine Program.wp_caught (D := fun _ s' => Only (· = part) s₁ s')
      (mwp_bind (B := fun reply s' => s' = s₁ ∧ Faithful H s₁ (.call () (.request url part purpose) (.ok reply)))
        (mwp_try rfl fun a s' hx => ?_) fun reply s₂ h₂ => ?_) fun e s₂ h₂ => ?_
    · obtain ⟨rfl, hfaithful, -⟩ := hx
      refine ⟨trivial, fun b hb => ⟨rfl, ?_⟩, fun _ _ => .refl _ _⟩
      change a = .ok b at hb
      exact hb ▸ hfaithful
    · obtain ⟨rfl, hfaithful⟩ := h₂
      -- 416 says that the part is whole
      cases reply with
      | httpError code =>
        change mwp H (if code = 416 then pure Fetched.done else if code = 404 then pure .missing else pure .again) _ _ _
        split
        · next hcode =>
          refine ⟨.refl _ _, fun _ hfirst => ?_⟩
          subst hfirst
          exact hfaithful hcode
        · split
          · exact ⟨.refl _ _, nofun⟩
          · exact ⟨.refl _ _, nofun⟩
      | response status =>
        exact Program.wp_mono (fun _ _ h => ⟨h.1, fun _ => h.2⟩) (fun _ _ h => h) (mwp_receive hpart)
    -- an `OSError` is tried again, and nothing else
    · change mwp H (if e = .os then pure Fetched.again else throw e) _ _ _
      split
      · exact ⟨h₂, nofun⟩
      · exact h₂

theorem mwp_fetchAll {url part : String} {purpose : Purpose} (hpart : IsPart part) (n : ℕ) :
    mwp H (fetchAll url part purpose n)
      (fun ok s' => Only (· = part) s s' ∧ (ok = true → Fetch purpose url part s'))
      (fun _ s' => Only (· = part) s s') s := by
  induction n generalizing s with
  | zero => exact ⟨.refl _ _, nofun⟩
  | succ n ih =>
    refine mwp_bind (mwp_fetch hpart) fun r s₁ h₁ => ?_
    cases r with
    | done => exact ⟨h₁.1, fun _ => h₁.2 rfl⟩
    | missing => exact ⟨h₁.1, nofun⟩
    | again =>
      exact Program.wp_mono (fun _ _ h => ⟨h₁.1.trans h.1, h.2⟩) (fun _ _ h => h₁.1.trans h) ih

/-- **A download touches the partial download alone.** -/
theorem mwp_download {part : String} {purpose : Purpose} (hpart : IsPart part) (urls : List String) :
    mwp H (download part purpose urls)
      (fun url s' => Only (· = part) s s' ∧ Fetch purpose url part s')
      (fun _ s' => Only (· = part) s s') s := by
  induction urls generalizing s with
  | nil => exact .refl _ _
  | cons url urls ih =>
    refine mwp_bind (mwp_fetchAll hpart 3) fun ok s₁ h₁ => ?_
    cases ok with
    | true => exact ⟨h₁.1, h₁.2 rfl⟩
    | false =>
      exact Program.wp_mono (fun _ _ h => ⟨h₁.1.trans h.1, h.2⟩) (fun _ _ h => h₁.1.trans h) ih

/-! ### One entry -/

/-- A record that agrees with the file. -/
def Recorded (H : Host) (lock : Lock) (s : State) (path : String) : Prop :=
  ∃ rec c, lock path = some rec ∧ s.files path = some c ∧ H.sha256 c = rec.sha256

/-- And the file with what is published. -/
def Settled (H : Host) (e : Entry) (lock : Lock) (s : State) (path : String) : Prop :=
  ∃ rec c, lock path = some rec ∧ s.files path = some c ∧ H.sha256 c = rec.sha256 ∧ e.Published H c

/-- The files that an entry's run touches. -/
def Mine (dest path : String) : Prop := ¬Final path ∨ path = dest

/-- **What an entry's run leaves.** -/
structure After (H : Host) (dest : String) (e : Entry) (dryRun : Bool) (lock : Lock) (s : State)
    (r : Bool × Lock) (s' : State) : Prop where
  only : Only (Mine dest) s s'
  known : Known H s'.served r.2
  others : ∀ path, path ≠ dest → r.2 path = lock path
  settled : r.1 = true → dryRun = false → Settled H e r.2 s' dest
  kept : Recorded H lock s dest → s'.files dest = s.files dest ∧ r.2 = lock

variable {e : Entry} {m : Manifest} {lock : Lock} {dryRun : Bool} {sha source : String}

theorem not_isPart_sigOf (e : Entry) (m : Manifest) : ¬IsPart (sigOf e m) := by
  intro hpart
  have hsig : ".sign".toList <:+ (sigOf e m).toList := by
    unfold sigOf
    simp only [String.toList_append, ← List.append_assoc]
    exact List.suffix_append ..
  have heq : ".part".toList = ".sign".toList :=
    (List.suffix_of_suffix_length_le hpart hsig (by decide)).eq_of_length (by decide)
  exact absurd heq (by decide)

theorem partOf_injective {p q : String} (h : partOf p = partOf q) : p = q := by
  have hlist := congrArg String.toList h
  unfold partOf at hlist
  rw [String.toList_append, String.toList_append] at hlist
  exact String.toList_injective (List.append_cancel_right hlist)

theorem dest_ne_part (hd : Final (destOf e m)) : destOf e m ≠ partOf (destOf e m) := fun heq =>
  hd.1 (heq ▸ isPart_partOf _)

/-- The file is moved and recorded. -/
theorem mwp_settle {how : How} (hd : Final (destOf e m))
    (hpassed : ∀ c, s.files (partOf (destOf e m)) = some c →
      Placement.Passed H ⟨e, c, (lock (destOf e m)).map (·.sha256)⟩)
    (hsha : ∀ c, s.files (partOf (destOf e m)) = some c → sha = H.sha256 c)
    (hfirst : how.IsFirst → ∃ c, s.files (partOf (destOf e m)) = some c ∧ (source, c) ∈ s.served)
    (hknown : Known H s.served lock) (hnot : ¬Recorded H lock s (destOf e m)) :
    mwp H (settle e m lock sha source how) (After H (destOf e m) e dryRun lock s)
      (fun _ s' => Only (Mine (destOf e m)) s s') s := by
  refine mwp_bind (B := fun _ s' => Only (Mine (destOf e m)) s s' ∧ ∃ c,
    s.files (partOf (destOf e m)) = some c ∧ s'.files (destOf e m) = some c)
    (mwp_try rfl fun a s' hx => ?_) fun _ s₁ h₁ => ?_
  · obtain ⟨hx, -⟩ := hx
    refine ⟨hpassed, ?_⟩
    cases a with
    | error err =>
      obtain rfl := hx
      exact ⟨nofun, fun _ _ => .refl _ _⟩
    | ok _ =>
      obtain ⟨c, hc, rfl⟩ := hx
      refine ⟨fun _ _ => ⟨⟨fun path hpath => ?_, rfl, rfl, fun _ h => h⟩, c, hc, ?_⟩, nofun⟩
      -- other entries are left alone
      · have hpart : path ≠ partOf (destOf e m) := by
          rintro rfl
          exact hpath (.inl (not_final_part (isPart_partOf _)))
        have hdest : path ≠ destOf e m := fun heq => hpath (.inr heq)
        simp only [State.move, Function.update_of_ne hpart, Function.update_of_ne hdest]
      · simp only [State.move, Function.update_of_ne (dest_ne_part hd), Function.update_self, hc]
  · obtain ⟨honly, c, hc, hdest⟩ := h₁
    refine mwp_bind (B := fun _ s' => s' = s₁) (mwp_try rfl fun a s' hx => ?_) fun size s₂ h₂ => ?_
    · obtain ⟨rfl, -⟩ := hx
      exact ⟨trivial, fun _ _ => rfl, fun _ _ => honly⟩
    · subst h₂
      refine ⟨honly, fun path rec hrec hrecfirst => ?_, fun path hne => Function.update_of_ne hne ..,
        fun _ _ => ⟨_, c, Function.update_self .., hdest, (hsha c hc).symm, (hpassed c hc).1⟩,
        fun hrec => absurd hrec hnot⟩
      -- the record of this entry, or one of before
      by_cases hpath : path = destOf e m
      · subst hpath
        simp only [Function.update_self, Option.some.injEq] at hrec
        subst hrec
        obtain ⟨c', hc', hserved⟩ := hfirst hrecfirst
        exact ⟨c', honly.served _ hserved, (hsha c' hc').symm⟩
      · simp only [Function.update_of_ne hpath] at hrec
        exact hknown.mono honly.served path rec hrec hrecfirst

/-- A file that did not pass is thrown away. -/
theorem mwp_discard (hknown : Known H s.served lock) (hnot : ¬Recorded H lock s (destOf e m)) :
    mwp H (discard (partOf (destOf e m)) lock) (After H (destOf e m) e dryRun lock s)
      (fun _ s' => Only (Mine (destOf e m)) s s') s := by
  refine mwp_bind (B := fun _ s' => Only (Mine (destOf e m)) s s') (mwp_try rfl fun a s' hx => ?_)
    fun _ s₁ h₁ => ?_
  · obtain ⟨hx, -⟩ := hx
    cases a with
    | error err =>
      obtain rfl := hx
      exact ⟨trivial, nofun, fun _ _ => .refl _ _⟩
    | ok _ =>
      obtain rfl := hx
      refine ⟨trivial, fun _ _ => ⟨fun path hpath => ?_, rfl, rfl, fun _ h => h⟩, nofun⟩
      have hpart : path ≠ partOf (destOf e m) := by
        rintro rfl
        exact hpath (.inl (not_final_part (isPart_partOf _)))
      exact Function.update_of_ne hpart ..
  · exact ⟨h₁, hknown.mono h₁.served, fun _ _ => rfl, nofun, fun hrec => absurd hrec hnot⟩

/-- **The signature covers the download.** -/
theorem mwp_signature :
    mwp H (signature e m)
      (fun ok s' => Only (fun path => path = partOf (sigOf e m) ∨ path = sigOf e m) s s' ∧
        (ok = true → ∀ c, s'.files (partOf (destOf e m)) = some c → ∃ d, H.signed c d))
      (fun _ s' => Only (fun path => path = partOf (sigOf e m) ∨ path = sigOf e m) s s') s := by
  refine mwp_bind (Program.wp_mono (fun _ _ h => h) (fun _ _ h => h.mono fun _ => .inl)
    (mwp_download (isPart_partOf _) _)) fun url s₁ h₁ => ?_
  have h₁ : Only (fun path => path = partOf (sigOf e m) ∨ path = sigOf e m) s s₁ :=
    h₁.1.mono fun _ => .inl
  refine mwp_bind (B := fun _ s' => Only (fun path => path = partOf (sigOf e m) ∨ path = sigOf e m) s s')
    (mwp_try rfl fun a s' hx => ?_) fun _ s₂ h₂ => mwp_try rfl fun a s' hx => ?_
  · obtain ⟨hx, -⟩ := hx
    refine ⟨not_final_sig e m, ?_⟩
    cases a with
    | error err =>
      obtain rfl := hx
      exact ⟨nofun, fun _ _ => h₁⟩
    | ok _ =>
      obtain rfl := hx
      refine ⟨fun _ _ => h₁.trans ⟨fun path hpath => ?_, rfl, rfl, fun _ h => h⟩, nofun⟩
      obtain ⟨hpart, hsig⟩ := not_or.mp hpath
      simp only [State.move, Function.update_of_ne hpart, Function.update_of_ne hsig]
  -- the signature was made over what is in the part
  · obtain ⟨⟨hok, rfl⟩, -⟩ := hx
    refine ⟨trivial, fun ok hans => ⟨h₂, fun htrue c hc => ?_⟩, fun _ _ => h₂⟩
    subst htrue
    obtain ⟨c', d, hc', -, hsigned⟩ := hok hans
    obtain rfl := Option.some.inj (hc.symm.trans hc')
    exact ⟨d, hsigned⟩

variable {replaced : Bool}

/-- A file that is fetched again was not recorded. -/
theorem After.of_only {r : Bool × Lock} (h : Only (Mine (destOf e m)) s s')
    (hnot : ¬Recorded H lock s (destOf e m))
    (hafter : After H (destOf e m) e dryRun lock s' r s'') :
    After H (destOf e m) e dryRun lock s r s'' :=
  ⟨h.trans hafter.only, hafter.known, hafter.others, hafter.settled, fun hrec => absurd hrec hnot⟩

theorem not_recorded_of_only {P : String → Prop} (h : Only P s s') (hP : ¬P (destOf e m))
    (hnot : ¬Recorded H lock s (destOf e m)) : ¬Recorded H lock s' (destOf e m) := by
  rintro ⟨rec, c, hrec, hc, hsha⟩
  exact hnot ⟨rec, c, hrec, (h.files _ hP).symm.trans hc, hsha⟩

/-- What a program leaves that starts where others of the entry's files were touched. -/
theorem mwp_of_only {p : Code (Bool × Lock)} (h : Only (Mine (destOf e m)) s s')
    (hnot : ¬Recorded H lock s (destOf e m))
    (hp : mwp H p (After H (destOf e m) e dryRun lock s') (fun _ s'' => Only (Mine (destOf e m)) s' s'') s') :
    mwp H p (After H (destOf e m) e dryRun lock s) (fun _ s'' => Only (Mine (destOf e m)) s s'') s' :=
  Program.wp_mono (fun _ _ hafter => hafter.of_only h hnot) (fun _ _ h' => h.trans h') hp

theorem mine_of_part {path : String} (h : path = partOf (destOf e m)) : Mine (destOf e m) path :=
  .inl (h ▸ not_final_part (isPart_partOf _))

theorem mine_of_sig {path : String} (h : path = partOf (sigOf e m) ∨ path = sigOf e m) :
    Mine (destOf e m) path := by
  rcases h with rfl | rfl
  · exact .inl (not_final_part (isPart_partOf _))
  · exact .inl (not_final_sig e m)

/-- A signature is not the file that it signs, nor its download. -/
theorem dest_ne_sig (hd : Final (destOf e m)) :
    ¬(destOf e m = partOf (sigOf e m) ∨ destOf e m = sigOf e m) := by
  rintro (heq | heq)
  · exact not_final_part (isPart_partOf _) (heq ▸ hd)
  · exact not_final_sig e m (heq ▸ hd)

theorem part_ne_sig (hd : Final (destOf e m)) :
    ¬(partOf (destOf e m) = partOf (sigOf e m) ∨ partOf (destOf e m) = sigOf e m) := by
  rintro (heq | heq)
  · exact dest_ne_sig hd (.inr (partOf_injective heq))
  · exact not_isPart_sigOf e m (heq ▸ isPart_partOf _)

/-- **The verification of a download**, of the three kinds. -/
theorem mwp_check (hplain : e.Plain m)
    (hsha : ∀ c, s.files (partOf (destOf e m)) = some c → sha = H.sha256 c)
    (hfetch : Fetch (purposeOf e (lock (destOf e m))) source (partOf (destOf e m)) s)
    (hknown : Known H s.served lock) (hnot : ¬Recorded H lock s (destOf e m)) :
    mwp H (check e m lock sha source replaced) (After H (destOf e m) e dryRun lock s)
      (fun _ s' => Only (Mine (destOf e m)) s s') s := by
  obtain ⟨hd, hnone⟩ := hplain
  dsimp only [check]
  split
  -- the manifest has an MD5 sum
  · next hmd5 =>
    refine mwp_bind (B := fun got s' => s' = s ∧ ∀ c, s.files (partOf (destOf e m)) = some c →
      got = H.md5 c) (mwp_try rfl fun a s' hx => ?_) fun got s₁ h₁ => ?_
    · obtain ⟨⟨hgot, rfl⟩, -⟩ := hx
      refine ⟨trivial, fun got hans => ⟨rfl, fun c hc => ?_⟩, fun _ _ => .refl _ _⟩
      obtain ⟨c', hc', rfl⟩ := hgot got hans
      rw [Option.some.inj (hc.symm.trans hc')]
    · obtain ⟨rfl, hgot⟩ := h₁
      split
      · exact mwp_discard hknown hnot
      · next heq =>
        refine mwp_settle hd (fun c hc => ⟨⟨fun _ => ?_, fun hkernel => absurd (hnone hkernel) hmd5⟩,
          fun hnil => absurd hnil hmd5⟩) hsha nofun hknown hnot
        exact (hgot c hc).symm.trans (not_not.mp heq)
  · next hmd5 =>
    have hmd5 : e.md5 = "" := not_not.mp hmd5
    split
    -- it is signed
    · next hkernel =>
      refine mwp_bind (Program.wp_mono (fun _ _ h => h) (fun _ _ h => h.mono fun _ => mine_of_sig)
        mwp_signature) fun ok s₁ h₁ => ?_
      obtain ⟨honly, hsigned⟩ := h₁
      have hpart := honly.files _ (part_ne_sig hd)
      have hnot₁ := not_recorded_of_only honly (dest_ne_sig hd) hnot
      refine mwp_of_only (honly.mono fun _ => mine_of_sig) hnot ?_
      cases ok with
      | true =>
        refine mwp_settle hd (fun c hc => ⟨⟨fun hne => absurd hmd5 hne, fun _ => hsigned rfl c hc⟩,
          fun _ hne => absurd hkernel hne⟩) (fun c hc => hsha c (hpart ▸ hc)) nofun
          (hknown.mono honly.served) hnot₁
      | false => exact mwp_discard (hknown.mono honly.served) hnot₁
    · next hkernel =>
      have hpublished (c : Bytes) : e.Published H c :=
        ⟨fun hne => absurd hmd5 hne, fun hk => absurd hk hkernel⟩
      -- neither: it must be what was recorded, or is recorded now
      cases hlock : lock (destOf e m) with
      | some known =>
        change mwp H (if sha ≠ known.sha256 then discard _ lock else settle ..) _ _ _
        split
        · exact mwp_discard hknown hnot
        · next heq =>
          refine mwp_settle hd (fun c hc => ⟨hpublished c, fun _ _ sha' hsha' => ?_⟩) hsha nofun hknown hnot
          rw [hlock] at hsha'
          obtain rfl := Option.some.inj hsha'
          exact (hsha c hc).symm.trans (not_not.mp heq)
      | none =>
        refine mwp_settle hd (fun c hc => ⟨hpublished c, fun _ _ sha' hsha' => ?_⟩) hsha
          (fun _ => ?_) hknown hnot
        · rw [hlock] at hsha'
          cases hsha'
        · exact hfetch (if_pos ⟨hmd5, hkernel, hlock⟩)

/-- A file that was not recorded is downloaded. -/
theorem mwp_renew (hplain : e.Plain m) (hknown : Known H s.served lock)
    (hnot : ¬Recorded H lock s (destOf e m)) :
    mwp H (renew e m lock dryRun replaced) (After H (destOf e m) e dryRun lock s)
      (fun _ s' => Only (Mine (destOf e m)) s s') s := by
  cases dryRun with
  | true => exact ⟨.refl _ _, hknown, fun _ _ => rfl, nofun, fun hrec => absurd hrec hnot⟩
  | false =>
    refine mwp_bind (B := fun _ s' => s' = s) (mwp_try rfl fun a s' hx => ?_) fun _ s₁ h₁ => ?_
    · obtain ⟨rfl, -⟩ := hx
      exact ⟨trivial, fun _ _ => rfl, fun _ _ => .refl _ _⟩
    · subst h₁
      -- the download, its sum, and the check
      refine mwp_bind (Program.wp_mono (fun _ _ h => h) (fun _ _ h => h.mono fun _ => mine_of_part)
        (mwp_download (isPart_partOf _) _)) fun url s₂ h₂ => ?_
      obtain ⟨honly, hfetch⟩ := h₂
      refine mwp_bind (B := fun sha s' => s' = s₂ ∧ ∀ c, s₂.files (partOf (destOf e m)) = some c →
        sha = H.sha256 c) (mwp_try rfl fun a s' hx => ?_) fun sha s₃ h₃ => ?_
      · obtain ⟨⟨hgot, rfl⟩, -⟩ := hx
        refine ⟨trivial, fun got hans => ⟨rfl, fun c hc => ?_⟩,
          fun _ _ => honly.mono fun _ => mine_of_part⟩
        obtain ⟨c', hc', rfl⟩ := hgot got hans
        rw [Option.some.inj (hc.symm.trans hc')]
      · obtain ⟨rfl, hsha⟩ := h₃
        refine mwp_of_only (honly.mono fun _ => mine_of_part) hnot ?_
        exact mwp_check hplain hsha hfetch (hknown.mono honly.served)
          (not_recorded_of_only honly (dest_ne_part hplain.1) hnot)

/-- A file that is present is what its entry says. -/
theorem published_of_present {c : Bytes} {sha : String} {a : Except Failure String}
    (hd : Final (destOf e m)) (hinv : Inv H s)
    (hfaithful : Faithful H s (.call () (.present e (destOf e m) sha) a))
    (hc : s.files (destOf e m) = some c) (hsha : H.sha256 c = sha) : e.Published H c := by
  obtain ⟨p, hp, rfl, ⟨hmd5, hkernel⟩, -⟩ := hinv.placed _ _ hd hc
  obtain ⟨hsame, hkind⟩ := hfaithful p p.content hp hc hsha
  refine ⟨fun hne => ?_, fun hset => ?_⟩
  · rcases hsame hne with heq | heq
    · exact heq ▸ hmd5 (heq ▸ hne)
    · exact heq
  · rcases hkind hset with hset' | hsigned
    · exact hkernel hset'
    · exact hsigned

/-- **One entry.** -/
theorem mwp_mirrorOne (hplain : e.Plain m) (hknown : Known H s.served lock) :
    mwp H (mirrorOne e m lock dryRun) (After H (destOf e m) e dryRun lock s)
      (fun _ s' => Only (Mine (destOf e m)) s s') s := by
  rintro s₁ rfl present s₂ ⟨⟨rfl, rfl⟩, -⟩
  refine ⟨trivial, ?_⟩
  cases hfile : s₂.files (destOf e m) with
  -- no file, or no record of it: it is fetched
  | none =>
    have hnot : ¬Recorded H lock s₂ (destOf e m) := by
      rintro ⟨rec, c, -, hc, -⟩
      exact absurd (hfile.symm.trans hc) nofun
    exact mwp_renew hplain hknown hnot
  | some c =>
    rw [show (some c).isSome = true from rfl]
    dsimp only [Program.bind]
    cases hlock : lock (destOf e m) with
    | none =>
      have hnot : ¬Recorded H lock s₂ (destOf e m) := by
        rintro ⟨rec, c, hrec, -⟩
        exact absurd (hlock.symm.trans hrec) nofun
      exact mwp_renew hplain hknown hnot
    | some known =>
      refine mwp_bind (B := fun sha s' => s' = s₂ ∧ sha = H.sha256 c ∧
        (sha = known.sha256 → e.Published H c)) (mwp_try rfl fun a s' hx => ?_) fun sha s₃ h₃ => ?_
      · obtain ⟨⟨hgot, rfl⟩, hfaithful, hinv⟩ := hx
        refine ⟨trivial, fun sha hans => ?_, fun _ _ => .refl _ _⟩
        obtain ⟨c', hc', rfl⟩ := hgot sha hans
        obtain rfl := Option.some.inj (hfile.symm.trans hc')
        exact ⟨rfl, rfl, published_of_present hplain.1 hinv hfaithful hfile⟩
      · obtain ⟨rfl, rfl, hpublished⟩ := h₃
        split
        -- the file is the one that was recorded
        · next heq =>
          exact ⟨.refl _ _, hknown, fun _ _ => rfl,
            fun _ _ => ⟨known, c, hlock, hfile, heq, hpublished heq⟩, fun _ => ⟨rfl, rfl⟩⟩
        · next hne =>
          refine mwp_renew hplain hknown ?_
          rintro ⟨rec, c', hrec, hc', heq⟩
          obtain rfl := Option.some.inj (hlock.symm.trans hrec)
          obtain rfl := Option.some.inj (hfile.symm.trans hc')
          exact hne heq

/-! ### A run -/

/-- The entries that are settled, where the records are written. -/
def Done (H : Host) (m : Manifest) (es : List Entry) (lock : Lock) (s : State) : Prop :=
  ∀ e ∈ es, s.mirror = some lock ∧ Settled H e lock s (destOf e m)

/-- What an entry's run leaves is settled, and so is what was settled before. -/
theorem After.settled_all {es : List Entry} {r : Bool × Lock}
    (h : After H (destOf e m) e dryRun lock s r s') (hm : ∀ d ∈ es, d.Plain m)
    (hdone : Done H m es lock s) (hok : r.1 = true) (hdry : dryRun = false) :
    ∀ d ∈ es ++ [e], Settled H d r.2 s' (destOf d m) := by
  intro d hd
  rcases List.mem_append.mp hd with hd | hd
  · obtain ⟨-, rec, c, hrec, hc, hsha, hpublished⟩ := hdone d hd
    by_cases hdest : destOf d m = destOf e m
    · -- the same file: it is recorded, and kept
      obtain ⟨hfile, hlock⟩ := h.kept (hdest ▸ ⟨rec, c, hrec, hc, hsha⟩)
      refine ⟨rec, c, hlock ▸ hrec, ?_, hsha, hpublished⟩
      rw [hdest] at hc ⊢
      exact hfile.trans hc
    · have hnot : ¬Mine (destOf e m) (destOf d m) := by
        rintro (hfinal | heq)
        · exact hfinal (hm d hd).1
        · exact hdest heq
      exact ⟨rec, c, (h.others _ hdest).trans hrec, (h.only.files _ hnot).trans hc, hsha, hpublished⟩
  · obtain rfl := List.mem_singleton.mp hd
    exact h.settled hok hdry

/-- An entry of a run, with its handler. -/
theorem mwp_entry {es : List Entry} {failed : Bool} (hm : ∀ d ∈ es, d.Plain m)
    (hplain : e.Plain m) (hknown : Known H s.served lock)
    (hdone : failed = false → dryRun = false → Done H m es lock s) :
    mwp H (tryCatch (mirrorOne e m lock dryRun)
        fun f => if f = .other then throw f else pure (false, lock))
      (fun r s' => s'.run = s.run ∧ Known H s'.served r.2 ∧
        ((failed || !r.1) = false → dryRun = false →
          r.1 = true ∧ ∀ d ∈ es ++ [e], Settled H d r.2 s' (destOf d m)))
      (fun _ _ => True) s := by
  refine Program.wp_caught (Program.wp_mono (fun r s' h => ⟨h.only.run, h.known, fun hok hdry => ?_⟩)
    (fun _ _ h => h) (mwp_mirrorOne hplain hknown)) fun f s' h => ?_
  · obtain ⟨hfailed, hr⟩ := Bool.or_eq_false_iff.mp hok
    have hr : r.1 = true := Bool.not_eq_eq_eq_not.mp hr
    exact ⟨hr, h.settled_all hm (hdone hfailed hdry) hr hdry⟩
  · change mwp H (if f = .other then throw f else pure (false, lock)) _ _ _
    split
    · trivial
    · refine ⟨h.run, hknown.mono h.served, fun hok => ?_⟩
      exact absurd ((Bool.or_true failed).symm.trans hok) nofun

/-- The records are written. -/
theorem mwp_record {r : Bool × Lock} {es : List Entry} {failed : Bool}
    (hknown : Known H s.served r.2)
    (hsettled : (failed || !r.1) = false → dryRun = false →
      r.1 = true ∧ ∀ d ∈ es, Settled H d r.2 s (destOf d m)) :
    mwp H (record dryRun r)
      (fun _ s' => s'.run = s.run ∧ Known H s'.served r.2 ∧
        ((failed || !r.1) = false → dryRun = false → Done H m es r.2 s'))
      (fun _ _ => True) s := by
  unfold record
  split
  · refine mwp_try rfl fun a s' hx => ⟨hknown, fun _ hans => ?_, fun _ _ => trivial⟩
    obtain ⟨hx, -⟩ := hx
    cases a with
    | error err => cases hans
    | ok _ =>
      obtain rfl := hx
      exact ⟨rfl, hknown, fun hok hdry d hd => ⟨rfl, (hsettled hok hdry).2 d hd⟩⟩
  · next hcond =>
    refine ⟨rfl, hknown, fun hok hdry => absurd ?_ hcond⟩
    rw [(hsettled hok hdry).1, hdry]
    rfl

/-- **The loop:** if none failed, all are settled. -/
theorem mwp_mirrorAll {ds : List Entry} {failed : Bool} (es : List Entry)
    (hm : ∀ d ∈ ds ++ es, d.Plain m) (hknown : Known H s.served lock)
    (hdone : failed = false → dryRun = false → Done H m ds lock s) :
    mwp H (mirrorAll m dryRun es lock failed)
      (fun failed' s' => s'.run = s.run ∧ (failed' = false → dryRun = false →
        ∃ lock', Done H m (ds ++ es) lock' s'))
      (fun _ _ => True) s := by
  induction es generalizing ds lock failed s with
  | nil =>
    refine ⟨rfl, fun hok hdry => ⟨lock, ?_⟩⟩
    rw [List.append_nil]
    exact hdone hok hdry
  | cons e es ih =>
    have happend : ds ++ e :: es = (ds ++ [e]) ++ es := by
      rw [List.append_assoc, List.singleton_append]
    refine mwp_bind (mwp_entry (fun d hd => hm d (List.mem_append_left _ hd))
      (hm e (List.mem_append_right _ List.mem_cons_self)) hknown hdone) fun r s₁ h₁ => ?_
    obtain ⟨hrun₁, hknown₁, hsettled⟩ := h₁
    refine mwp_bind (mwp_record hknown₁ hsettled) fun _ s₂ h₂ => ?_
    obtain ⟨hrun₂, hknown₂, hdone₂⟩ := h₂
    rw [happend] at hm ⊢
    exact Program.wp_mono (fun _ _ h => ⟨h.1.trans (hrun₂.trans hrun₁), h.2⟩) (fun _ _ h => h)
      (ih hm hknown₂ hdone₂)

theorem mwp_mirror {args : Args} (hm : ∀ d ∈ selected args m, d.Plain m) (hrun : s.run = some (args, m)) :
    mwp H (mirror args m) (fun code s' => code = 0 → Complete H s') (fun _ _ => True) s := by
  refine mwp_bind (B := fun lock s' => s'.run = s.run ∧ Known H s'.served lock)
    (Program.wp_caught (D := fun _ s' => s' = s) (mwp_try rfl fun a s' hx => ?_) fun f s' h => ?_)
    fun lock s₁ h₁ => ?_
  · obtain ⟨⟨hlock, rfl⟩, -, hinv⟩ := hx
    exact ⟨trivial, fun lock hans => ⟨rfl, hinv.known lock (hlock lock hans)⟩, fun _ _ => rfl⟩
  · subst h
    change mwp H (if f = .os then pure fun _ => none else throw f) _ _ _
    split
    · exact ⟨rfl, nofun⟩
    · trivial
  · obtain ⟨hrun₁, hknown⟩ := h₁
    have hplain : ∀ d ∈ [] ++ selected args m, d.Plain m := hm
    refine mwp_bind (mwp_mirrorAll (selected args m) hplain hknown fun _ _ _ => nofun)
      fun failed s₂ h₂ => ?_
    obtain ⟨hrun₂, hdone⟩ := h₂
    have hrun₂ : s₂.run = some (args, m) := hrun₂.trans (hrun₁.trans hrun)
    have hcomplete : failed = false → Complete H s₂ := by
      intro hok args' m' hrun' hdry e he
      obtain ⟨rfl, rfl⟩ := Prod.mk.inj (Option.some.inj (hrun₂.symm.trans hrun'))
      obtain ⟨lock', hdone⟩ := hdone hok hdry
      obtain ⟨hmirror, rec, c, h⟩ := hdone e he
      exact ⟨lock', rec, c, hmirror, h⟩
    change mwp H (if failed = true then pure 1 else if args.dryRun = true then pure 0 else _) _ _ _
    split
    · exact nofun
    · next hok =>
      have hcomplete := hcomplete (Bool.not_eq_true _ ▸ hok)
      split
      · exact fun _ => hcomplete
      · refine mwp_bind (B := fun _ s' => s' = s₂) (mwp_try rfl fun a s' hx => ?_) fun _ s₃ h₃ => ?_
        · obtain ⟨rfl, -⟩ := hx
          exact ⟨trivial, fun _ _ => rfl, fun _ _ => trivial⟩
        · exact fun _ => h₃ ▸ hcomplete

/-- **Exit code 0.** -/
theorem mwp_main {args : Args} :
    mwp H (main args) (fun code s' => code = 0 → Complete H s') (fun _ _ => True) s := by
  refine mwp_bind (B := fun r s' => ∀ m, r = some m → (∀ d ∈ selected args m, d.Plain m) ∧ s'.run = some (args, m))
    (Program.wp_caught (D := fun _ _ => True) (mwp_bind (B := fun m s' => (∀ d ∈ selected args m, d.Plain m) ∧
      s'.run = some (args, m)) (mwp_try rfl fun a s' hx => ?_) fun m s₁ h₁ => ?_) fun f s₁ _ => ?_)
    fun r s₁ h₁ => ?_
  · obtain ⟨hx, hfaithful, -⟩ := hx
    refine ⟨trivial, fun m hans => ?_, fun _ _ => trivial⟩
    cases a with
    | error err => cases hans
    | ok m' =>
      obtain rfl := Except.ok.inj hans
      exact ⟨hfaithful, hx ▸ rfl⟩
  · intro m' hm'
    exact Option.some.inj hm' ▸ h₁
  · change mwp H (if f = .os then pure none else throw f) _ _ _
    split
    · exact nofun
    · trivial
  · cases r with
    | none => exact nofun
    | some m =>
      obtain ⟨hm, hrun⟩ := h₁ m rfl
      exact mwp_mirror hm hrun

/-! ### Runs -/

/-- The runs, one after the other. -/
def outline (H : Host) : Outline (fun _ => exec H)
    fun x m => (Runs m ∧ Faithful H x.shared m) ∧ Inv H x.shared where
  rely _ := Eq
  guar _ s c a s' := Sem H s c a s' ∧ Guard H s c
  idle _ _ := True
  post _ code s := code = 0 → Complete H s
  fail _ _ _ := True
  sem _ s c a s' := Sem H s c a s'
  sem_of_ok _ _ _ _ _ hok hx := ⟨hx, hok.1.2, hok.2⟩
  rely_refl _ _ := rfl
  rely_trans _ _ _ _ h h' := h.trans h'
  rely_of_guar _ _ hne := absurd rfl hne
  idle_stable _ _ _ _ _ := trivial
  post_stable _ _ _ _ h hpost := h ▸ hpost
  fail_stable _ _ _ _ _ _ := trivial
  start x i p hp _ := by
    obtain ⟨⟨⟨args, rfl⟩, -⟩, -⟩ := hp
    exact Program.wp_executed mwp_main
  ret _ _ _ _ _ := trivial
  raise _ _ _ _ _ := trivial
  kill _ _ _ _ _ _ := trivial

theorem inv_init {parts : String → Option Bytes} (hparts : ∀ path, parts path ≠ none → IsPart path) :
    Inv H (.init parts) := by
  refine ⟨fun path c hf hc => ?_, nofun⟩
  exact absurd (hparts path (Option.ne_none_iff_exists'.mpr ⟨c, hc⟩)) hf.1

theorem Inv.promises (h : Inv H s) (hinj : Function.Injective H.sha256) : Promises H s where
  placed := h.placed
  whole lock path rec c hlock hrec hfirst _ hsha := by
    obtain ⟨c', hc', hsha'⟩ := h.known lock hlock path rec hrec hfirst
    exact hinj (hsha'.trans hsha.symm) ▸ hc'

/-- A text for some bytes. -/
def textOf (c : Bytes) : String := .ofList (c.map Char.ofUInt8)

theorem textOf_injective : Function.Injective textOf := by
  intro c d h
  have hinj : Function.Injective Char.ofUInt8 := fun a b hab => by
    have hval : a.toUInt32.toUInt8 = b.toUInt32.toUInt8 := congrArg (fun ch : Char => ch.val.toUInt8) hab
    simpa only [UInt8.toUInt8_toUInt32] using hval
  exact List.map_injective_iff.mpr hinj (String.ofList_injective h)

/-- Hash functions that collide nowhere; nobody signs. -/
def plain : Host := ⟨textOf, textOf, fun _ _ => False⟩

/-- The file `a`, with an MD5. -/
def entryA (md5 : String) : Entry := ⟨"a", "books", "https://host/a", md5, "the book"⟩

/-- The manifest gives it one MD5 before the first run ends, and `md5` afterwards; the source serves
the one body. -/
def respond (md5 : String) (s : State) : (c : Cmd) → Option (c.Ans × State)
  | .readManifest args =>
    let m : Manifest := ⟨"12", "12", "6", [entryA (if s.mirror.isSome then md5 else "A")]⟩
    some (.ok m, { s with run := some (args, m) })
  | .readMirror =>
    match s.mirror with
    | some lock => some (.ok lock, s)
    | none => some (.error .os, s)
  | .exists path => some ((s.files path).isSome, s)
  | .size path => some (.ok ((s.files path).getD []).length, s)
  | .present _ path _ | .sha256 path | .md5 path => (s.files path).map fun c => (.ok (textOf c), s)
  | .mkdir _ => some (.ok (), s)
  | .request .. => some (.ok (.response 200), s)
  | .copy url path append _ =>
    if append then none
    else some (⟨[65], [65], .ok ()⟩, { s with
      files := Function.update s.files path (some [65])
      served := (url, [65]) :: s.served })
  | .place entry known src dst => (s.files src).map fun c => (.ok (), { s with
      files := s.move src dst
      placed := Function.update s.placed dst (some ⟨entry, c, known⟩) })
  | .writeMirror lock => some (.ok (), { s with mirror := some lock })
  | .writeManifest => some (.ok (), s)
  | _ => none

variable {md5 : String} {c : Cmd} {a : c.Ans}

theorem exec_respond (h : respond md5 s c = some (a, s')) : exec plain s c a s' := by
  cases c with
  | readMirror =>
    simp only [respond] at h
    split at h
    · next lock hlock =>
      cases h
      exact ⟨fun lock' heq => Except.ok.inj heq ▸ hlock, rfl⟩
    · cases h
      exact ⟨nofun, rfl⟩
  | present _ path _ | sha256 path | md5 path =>
    obtain ⟨c, hc, heq⟩ := Option.map_eq_some_iff.mp h
    cases heq
    exact ⟨fun _ heq => ⟨c, hc, (Except.ok.inj heq).symm⟩, rfl⟩
  | copy url path append purpose =>
    simp only [respond] at h
    split at h
    · cases h
    · next happend =>
      cases h
      simp only [exec, State.received, happend, Bool.false_eq_true, if_false, List.nil_append]
  | place entry known src dst =>
    obtain ⟨c, hc, heq⟩ := Option.map_eq_some_iff.mp h
    cases heq
    exact ⟨c, hc, rfl⟩
  | readManifest | «exists» | size | mkdir | request | writeMirror | writeManifest =>
    cases h
    first | exact rfl | exact ⟨rfl, rfl⟩
  | verify | unlink | replace => cases h

theorem mem_of_selected {args : Args} (he : e ∈ selected args m) : e ∈ m.files := by
  unfold selected at he
  split at he
  · split at he
    · exact he
    · exact (List.mem_filter.mp he).1
  · exact he

theorem plain_entryA (md5 : String) :
    ∀ e ∈ [entryA md5], e.Plain ⟨"12", "12", "6", [entryA md5]⟩ := by
  intro e he
  obtain rfl := List.mem_singleton.mp he
  refine ⟨?_, fun hkernel => absurd (show "books" = "kernel" from hkernel) (by decide)⟩
  have hdest : destOf (entryA md5) ⟨"12", "12", "6", [entryA md5]⟩ = "books/a" := by
    change (if "books" = "lfs" then "12" else if "books" = "kernel" then "kernel"
      else if "books" = "books" then "books" else "blfs-" ++ "12") ++ "/" ++ "a" = "books/a"
    decide
  rw [hdest]
  unfold Final IsPart
  decide

/-- A file that nobody has touched is asked for its contents alone. -/
theorem faithful_respond (h : respond md5 s c = some (a, s')) (hplaced : ∀ e path sha, c ≠ .present e path sha) :
    Faithful plain s (.call () c a) := by
  cases c with
  | readManifest args =>
    cases h
    exact fun e he => plain_entryA _ e (mem_of_selected he)
  | present e path sha => exact absurd rfl (hplaced e path sha)
  | request url part purpose =>
    cases h
    cases purpose with
    | first => trivial
    | _ => trivial
  | copy url path append purpose =>
    cases purpose with
    | first =>
      simp only [respond] at h
      split at h
      · cases h
      · next happend =>
        cases h
        intro _
        simp only [State.received, happend, Bool.false_eq_true, if_false, List.nil_append]
    | _ => trivial
  | _ => trivial

/-- `respond`, until a file is present. -/
def respondFirst (s : State) (c : Cmd) : Option (c.Ans × State) :=
  match c with
  | .present .. => none
  | c => respond "A" s c

theorem of_respondFirst (h : respondFirst s c = some (a, s')) :
    respond "A" s c = some (a, s') ∧ ∀ e path sha, c ≠ .present e path sha := by
  cases c with
  | present => cases h
  | _ => exact ⟨h, nofun⟩

/-- The program has returned 0, and the file of an entry with the MD5 `B` is `A`. -/
def accepted (p : Code ℕ) (s : State) : Bool :=
  (match p with | .ret code => code == 0 | _ => false) && s.files "books/a" == some [65] &&
    s.run.any fun (args, m) =>
      !args.dryRun && (selected args m).any fun e => e.md5 == "B" && destOf e m == "books/a"

theorem of_accepted {p : Code ℕ} (h : accepted p s = true) : p = .ret 0 ∧ ¬Complete plain s := by
  unfold accepted at h
  rw [Bool.and_eq_true, Bool.and_eq_true] at h
  obtain ⟨⟨hp, hfile⟩, hany⟩ := h
  refine ⟨?_, fun hcomplete => ?_⟩
  · cases p with
    | ret code => exact congrArg _ (beq_iff_eq.mp hp)
    | _ => cases hp
  · obtain ⟨⟨args, m⟩, hrun, hm⟩ := Option.any_eq_true .. |>.mp hany
    obtain ⟨hdry, he⟩ := Bool.and_eq_true_iff.mp hm
    obtain ⟨e, he, heq⟩ := List.any_eq_true.mp he
    obtain ⟨hmd5, hdest⟩ := Bool.and_eq_true_iff.mp heq
    obtain ⟨lock, rec, c, -, -, hc, -, hpublished, -⟩ :=
      hcomplete args m hrun (Bool.not_eq_eq_eq_not.mp hdry) e he
    rw [beq_iff_eq.mp hdest] at hc
    obtain rfl := Option.some.inj ((beq_iff_eq.mp hfile).symm.trans hc)
    rw [beq_iff_eq.mp hmd5] at hpublished
    have heq : textOf [65] = "B" := hpublished (by decide)
    exact absurd heq (by decide)

end Mirror
end CloudCore
