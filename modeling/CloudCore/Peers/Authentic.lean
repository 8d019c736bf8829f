import CloudCore.Peers.References
import Mathlib.Data.Set.Insert

/-!
# Where a peer is said to be

`_reconcile_peer` asks an address it has heard of for its `self-info`, and moves the
peer to this address if the answer is signed with the peer's key.  An answer says
neither when it was signed nor for whom, so an attacker may give one it has received;
and the key is a text that is written into a file of allowed signers, so it may list
another key after the peer's.

## Main definitions

* `Net` — who owns an address, who holds a key, and what has been signed with it.
* `execNet` — the steps of the handlers in this network: an address answers with what
  its owner has signed, or, if the owner is not honest, with what it has seen.
* `Faithful` — what `ssh-keygen` is relied on for.
* `Trustworthy` — no attacker answers a signature again that it has seen, or a text that
  lists two keys.
* `Authentic` — the row is moved to an address whose owner holds the row's key.

## Main results

* `authentic_updates` — **peers are moved to addresses that hold their keys in every
  run whose steps are trustworthy.**
* `replayed` — an attacker that has seen the peer's `self-info` moves the peer to itself.
-/

namespace CloudCore
namespace Peers

open Python Effect
open Auth (PeerStatus)

/-! ### The network -/

/-- A network of principals that own addresses and hold keys. -/
structure Net (Principal Key : Type) where
  owner : String → Principal
  honest : Principal → Prop
  holds : Principal → Key → Prop
  /-- The signature is one of the payload, made with the private half of the key. -/
  signed : Key → Json → Json → Prop
  /-- The keys that a file of allowed signers lists with this text. -/
  listed : String → List Key
  fpr : Key → String

variable {Principal Key : Type}

/-- What `ssh-keygen` is relied on for: a signature that is accepted was made with a key
that the text lists, and the fingerprint of the text is that of its first key. -/
structure Faithful (pf : Platform) (net : Net Principal Key) : Prop where
  verify : ∀ payload signature text, pf.verify payload signature (.str text) = true →
    ∃ k ∈ net.listed text, net.signed k payload signature
  fingerprint : ∀ text f, pf.fingerprintOf text = some f →
    ∃ k, (net.listed text).head? = some k ∧ net.fpr k = f

/-- The tables, and the signatures that everybody has seen. -/
structure World (Key : Type) where
  store : State
  said : Set (Key × Json × Json)

/-- What the owner of an address may answer: a signature in it is made with its own key,
or, if it is not honest, is one it has seen. -/
def Net.MayAnswer (net : Net Principal Key) (said : Set (Key × Json × Json)) (o : Principal)
    (body : Json) : Prop :=
  ∀ k, net.signed k (field body "payload") (field body "signature") →
    net.holds o k ∨ (¬ net.honest o ∧ ∃ payload, (k, payload, field body "signature") ∈ said)

/-- The path of `self_info`. -/
def selfInfoPath : String := "/v1/peers/self-info"

/-- The answers of the addresses that are asked. -/
def Net.Answers (net : Net Principal Key) (said : Set (Key × Json × Json)) :
    (c : Cmd) → c.Ans → Prop
  | .get url, .ok (_, body) =>
    ∀ base, url = base ++ selfInfoPath → net.MayAnswer said (net.owner base) body
  | _, _ => True

/-- What a command does, while signatures are made and seen. -/
def execNet (net : Net Principal Key) (w : World Key) (c : Cmd) (a : c.Ans) (w' : World Key) : Prop :=
  exec w.store c a w'.store ∧ w.said ⊆ w'.said ∧
    (∀ m ∈ w'.said, m ∉ w.said → net.signed m.1 m.2.1 m.2.2) ∧ net.Answers w.said c a

/-- What is asked of a step, in the state before it: no text that an address answers
lists two keys, an attacker does not answer a signature that it has seen of the key it answers,
and `complete_pairing` writes only to a row that is pending. -/
def Trustworthy (net : Net Principal Key) (w : World Key) : (c : Cmd) → c.Ans → Prop
  | .get url, .ok (_, body) => ∀ base text, url = base ++ selfInfoPath →
    field (field body "payload") "pubkey" = .str text → (net.listed text).length ≤ 1 ∧
      (¬ net.honest (net.owner base) → ∀ k ∈ net.listed text, ∀ payload,
        (k, payload, field body "signature") ∉ w.said)
  | .updatePeer id (.complete ..), _ =>
    ∀ p ∈ w.store.peers, p.id = id → p.status = .pendingOutbound
  | _, _ => True

/-- A peer is moved only to an address whose owner holds a key of the row. -/
def Authentic (net : Net Principal Key) (w : World Key) (c : Cmd) : Prop :=
  ∀ id url wg e b, c = .updatePeer id (.address url wg e b) → ∀ p ∈ w.store.peers, p.id = id →
    ∃ k, net.holds (net.owner url) k ∧ net.fpr k = p.pubkeyFpr

/-! ### What an answer proves -/

theorem requestBody_some {body b : Json} (h : requestBody (some body) = .ok b) :
    b = body ∨ b = .obj [] := by
  unfold requestBody at h
  split at h
  · cases h
  next v hv =>
    cases hv
    split at h
    · cases h
      exact .inl rfl
    split at h
    · cases h
    · cases h
      exact .inr rfl

theorem fingerprint_ok {pf : Platform} {v : Json} {text f : String}
    (h : fingerprint pf v = .ok (text, f)) : v = .str text ∧ pf.fingerprintOf text = some f := by
  unfold fingerprint at h
  split at h
  next pubkey =>
    split at h
    next f' hf =>
      cases h
      exact ⟨rfl, hf⟩
    · cases h
  · cases h

/-- What `_reconcile_peer` has checked when it writes. -/
theorem selfInfoUpdate_some {pf : Platform} {peer : Peer} {hit : Hit} {status : ℕ} {body : Json}
    {u : PeerUpdate} (h : selfInfoUpdate pf peer hit status body = .ok (some u)) :
    ∃ text, field (field body "payload") "pubkey" = .str text ∧
      pf.verify (field body "payload") (field body "signature") (.str text) = true ∧
      pf.fingerprintOf text = some peer.pubkeyFpr := by
  unfold selfInfoUpdate at h
  split at h
  · cases h
  obtain ⟨b, hb, hb'⟩ := bind_eq_ok.mp h
  -- a body that is no dictionary has no payload
  rcases requestBody_some hb with rfl | rfl
  · dsimp only at hb'
    split at hb'
    · cases hb'
    split at hb'
    · cases hb'
    next hverify =>
      rw [Bool.not_eq_true', Bool.not_eq_false] at hverify
      split at hb'
      · cases hb'
      next pubkey hpubkey =>
        obtain ⟨⟨text, f⟩, hf, hsame⟩ := bind_eq_ok.mp hb'
        obtain ⟨rfl, hfpr⟩ := fingerprint_ok hf
        split at hsame
        · cases hsame
        next heq =>
          refine ⟨text, by rw [field, hpubkey, Option.getD_some], ?_, not_ne_iff.mp heq ▸ hfpr⟩
          rwa [fieldText, hpubkey, Option.getD_some] at hverify
  · cases hb'

/-- **The owner of an address that is believed holds the peer's key.** -/
theorem holds_of_selfInfo {pf : Platform} {net : Net Principal Key} (hnet : Faithful pf net)
    {peer : Peer} {hit : Hit} {status : ℕ} {body : Json} {u : PeerUpdate} {w : World Key}
    (h : selfInfoUpdate pf peer hit status body = .ok (some u))
    (hanswer : net.Answers w.said (.get (hit.url ++ selfInfoPath)) (.ok (status, body)))
    (htrust : Trustworthy net w (.get (hit.url ++ selfInfoPath)) (.ok (status, body))) :
    ∃ k, net.holds (net.owner hit.url) k ∧ net.fpr k = peer.pubkeyFpr := by
  obtain ⟨text, hpubkey, hverify, hfpr⟩ := selfInfoUpdate_some h
  obtain ⟨hone, hunseen⟩ := htrust hit.url text rfl hpubkey
  obtain ⟨k, hk, hsigned⟩ := hnet.verify _ _ _ hverify
  obtain ⟨k', hhead, hk'⟩ := hnet.fingerprint text _ hfpr
  -- the key that signed is the one whose fingerprint was compared
  obtain rfl : k = k' := by
    match hl : net.listed text with
    | [] =>
      rw [hl] at hk
      cases hk
    | [l] =>
      rw [hl] at hk hhead
      rw [List.head?_cons, Option.some.injEq] at hhead
      exact (List.mem_singleton.mp hk).trans hhead
    | l :: l' :: rest =>
      rw [hl] at hone
      exact absurd hone (by simp)
  refine ⟨k, ?_, hk'⟩
  rcases hanswer hit.url rfl k hsigned with hholds | ⟨hdishonest, payload, hseen⟩
  · exact hholds
  · exact absurd hseen (hunseen hdishonest k hk payload)

/-! ### Runs -/

/-- The row has been approved, for the host with the fingerprint. -/
def Fixed (id f : String) (s : State) : Prop :=
  (∃ p ∈ s.peers, p.id = id) ∧
    ∀ p ∈ s.peers, p.id = id → p.status ≠ .pendingOutbound ∧ p.pubkeyFpr = f

/-- Such a row stays of this host, if `complete_pairing` writes only to pending rows. -/
theorem Fixed.step {s s' : State} {c : Cmd} {a : c.Ans} {id f : String} (hx : exec s c a s')
    (hc : ∀ i k g t w e b d, c = .updatePeer i (.complete k g t w e b d) →
      ∀ p ∈ s.peers, p.id = i → p.status = .pendingOutbound) (h : Fixed id f s) :
    Fixed id f s' := by
  obtain ⟨⟨q, hq, hqid⟩, hall⟩ := h
  rcases peers_step hx with hsame | ⟨p, r, rfl, hfresh, hadd⟩ | ⟨i, u, rfl, hset⟩
  · rw [Fixed, hsame]
    exact ⟨⟨q, hq, hqid⟩, hall⟩
  · rw [Fixed, hadd]
    refine ⟨⟨q, List.mem_append_left _ hq, hqid⟩, fun p' hp' hid => ?_⟩
    rcases List.mem_append.mp hp' with hp' | hp'
    · exact hall p' hp' hid
    · rw [List.mem_singleton.mp hp'] at hid
      exact absurd (hqid.trans hid.symm) (hfresh q hq)
  · rw [Fixed, hset]
    constructor
    · obtain ⟨q', hq', hid'⟩ : ∃ q' ∈ setPeer s.peers i u, q'.id = q.id := by
        rw [← List.mem_map, setPeer_ids]
        exact List.mem_map_of_mem hq
      exact ⟨q', hq', hid'.trans hqid⟩
    · intro p' hp' hid
      rcases mem_setPeer hp' with ⟨hp', -⟩ | ⟨p, hp, hpi, rfl⟩
      · exact hall p' hp' hid
      · rw [PeerUpdate.apply_id] at hid
        obtain ⟨hstatus, hfpr⟩ := hall p hp hid
        cases u with
        | complete k g t w e b d =>
          exact absurd (hc i k g t w e b d rfl p hp hpi) hstatus
        | revoke => exact ⟨nofun, hfpr⟩
        | tunnel | address => exact ⟨hstatus, hfpr⟩

/-- Rows are known by their ids. -/
theorem ids_step {s s' : State} {c : Cmd} {a : c.Ans} (hx : exec s c a s')
    (h : (s.peers.map (·.id)).Nodup) : (s'.peers.map (·.id)).Nodup := by
  rcases peers_step hx with hsame | ⟨p, r, rfl, hfresh, hadd⟩ | ⟨i, u, rfl, hset⟩
  · rw [hsame]
    exact h
  · rw [hadd]
    exact nodup_insert h hfresh
  · rw [hset, setPeer_ids]
    exact h

section Outline

variable {ι : Type} [DecidableEq ι] {pf : Platform} {net : Net Principal Key}

/-- The moves of the threads, their steps being trustworthy. -/
def Admitted (pf : Platform) (net : Net Principal Key) (x : Config sig Failure Unit ι (World Key))
    (m : Move sig Failure Unit ι) : Prop :=
  Starts pf x m ∧ ∀ i (c : sig.Cmd) a, m = .call i c a → Trustworthy net x.shared c a

/-- A trustworthy step, where rows are known by their ids. -/
def Sem (net : Net Principal Key) (w : World Key) (c : sig.Cmd) (a : sig.Ans c) (w' : World Key) :
    Prop :=
  execNet net w c a w' ∧ Trustworthy net w c a ∧ (w.store.peers.map (·.id)).Nodup

/-- Rows that have been approved stay of their host. -/
def Rely (w w' : World Key) : Prop := ∀ id f, Fixed id f w.store → Fixed id f w'.store

def Guar (net : Net Principal Key) (w : World Key) (c : sig.Cmd) (_ : sig.Ans c) (w' : World Key) :
    Prop :=
  Rely w w' ∧ Authentic net w c

theorem rely_of_sem {w w' : World Key} {c : sig.Cmd} {a : sig.Ans c} (h : Sem net w c a w') :
    Rely w w' := by
  intro id f hfixed
  refine hfixed.step h.1.1 ?_
  rintro i k g t wg e b d rfl
  exact h.2.1

/-- The command moves no peer. -/
def Still : Cmd → Prop
  | .updatePeer _ (.address ..) => False
  | _ => True

theorem guar_of_still {w w' : World Key} {c : sig.Cmd} {a : sig.Ans c} (h : Sem net w c a w')
    (hc : Still c) : Guar net w c a w' := by
  refine ⟨rely_of_sem h, ?_⟩
  rintro id url wg e b rfl
  cases hc

theorem Harmless.still {c : Cmd} (h : Harmless c) : Still c := by
  cases c with
  | updatePeer id u =>
    cases u with
    | address => cases h
    | _ => trivial
  | _ => trivial

/-- The program is verified, whatever it leads to. -/
def Verified {α : Type} (net : Net Principal Key) (p : Code α) (w : World Key) : Prop :=
  p.wp (F := sig) (Sem net) Rely (Guar net) (fun _ _ => True) (fun _ _ => True) w

theorem verified_still {α : Type} {p : Code α} (hp : p.Confined Still fun _ => True) (w : World Key) :
    Verified net p w := by
  have hkeeps : Program.Keeps (F := sig) (Sem net) Rely (Guar net) (fun _ _ => True) Still
      fun _ => True := {
    stable := fun _ _ _ h => h
    told := fun _ _ _ _ _ _ => trivial
    step := fun _ _ _ _ _ hx hc => ⟨guar_of_still hx hc, trivial⟩ }
  exact Program.wp_mono (fun _ _ _ => trivial) (fun _ _ _ => trivial)
    (Program.carried_confined (F := sig) hkeeps hp w trivial)

/-- The rest of `_reconcile_peer`, for a row that is of the host. -/
theorem verified_followTo (hnet : Faithful pf net) {peer : Peer} {hit : Hit} {w : World Key}
    (h : Fixed peer.id peer.pubkeyFpr w.store) : Verified net (followTo pf peer hit) w := by
  intro w₁ hrely₁ answer w₂ hsem₂
  refine ⟨guar_of_still hsem₂ trivial, ?_⟩
  have hfixed₂ := rely_of_sem hsem₂ _ _ (hrely₁ _ _ h)
  cases answer with
  | error e => trivial
  | ok answer =>
    obtain ⟨status, body⟩ := answer
    show Verified net (Program.lift (selfInfoUpdate pf peer hit status body) >>= _) w₂
    cases hinfo : selfInfoUpdate pf peer hit status body with
    | error e => trivial
    | ok u =>
      cases u with
      | none => trivial
      | some u =>
        have hholds := holds_of_selfInfo hnet hinfo hsem₂.1.2.2.2 hsem₂.2.1
        obtain ⟨wg, e, b, rfl⟩ := selfInfoUpdate_address pf hinfo
        intro w₃ hrely₃ updated w₄ hsem₄
        refine ⟨⟨rely_of_sem hsem₄, ?_⟩, ?_⟩
        · rintro id url wg' e' b' hc p hp hid
          cases hc
          obtain ⟨k, hk, hfpr⟩ := hholds
          refine ⟨k, hk, hfpr.trans ?_⟩
          exact ((hrely₃ _ _ hfixed₂).2 p hp hid).2.symm
        · cases updated with
          | error e => trivial
          | ok updated =>
            cases updated with
            | none => trivial
            | some updated =>
              exact verified_still ((quiet_retunnel _ _).mono fun _ => Harmless.still) w₄

theorem verified_reconcilePeer (hnet : Faithful pf net) (id : String) (hit : Hit) (w : World Key) :
    Verified net (reconcilePeer pf id hit) w := by
  intro w₁ hrely₁ row w₂ hsem
  refine ⟨guar_of_still hsem trivial, ?_⟩
  obtain ⟨⟨⟨hstore, rfl⟩, -⟩, -, hids⟩ := hsem
  cases hpeer : findPeer w₁.store.peers (some id) with
  | none => trivial
  | some peer =>
    show Verified net (if peer.status ≠ .approved then pure ()
      else (followTo pf peer hit).tryCatch fun _ => pure ()) w₂
    split
    · trivial
    next happroved =>
      obtain ⟨hmem, -⟩ := findPeer_some hpeer
      refine (Program.wp_tryCatch _ _).mpr (verified_followTo hnet ?_)
      rw [hstore]
      refine ⟨⟨peer, hmem, rfl⟩, fun p hp hid => ?_⟩
      rw [eq_of_id hids hp hmem hid, not_ne_iff.mp happroved]
      exact ⟨nofun, rfl⟩

theorem verified_code (hnet : Faithful pf net) (op : Operation) (w : World Key) :
    Verified net (op.code pf) w := by
  have hstill : (∀ c, op.Issues c → Still c) → Verified net (op.code pf) w := fun hop =>
    verified_still (Program.confined_mono (fun c hc => hc.elim Harmless.still (hop c))
      (within_code pf op)) w
  cases op with
  | reconcile id hit => exact verified_reconcilePeer hnet id hit w
  | initiate | bootstrap | reject | revoke => exact hstill fun c hc => hc.elim
  | approve id =>
    refine hstill fun c hc => ?_
    cases c with
    | insertPeer | migrate => trivial
    | _ => cases hc
  | complete token body =>
    refine hstill fun c hc => ?_
    cases c with
    | updatePeer i u =>
      cases u with
      | complete => trivial
      | _ => cases hc
    | migrate => trivial
    | _ => cases hc
  | place table peerId fields =>
    refine hstill fun c hc => ?_
    cases c with
    | putRecord => trivial
    | _ => cases hc

/-- Every operation is verified. -/
def outline (hnet : Faithful pf net) : @Outline sig Failure Unit ι (World Key) (fun _ : ι => execNet net)
    fun x m => Admitted pf net x m ∧ (x.shared.store.peers.map (·.id)).Nodup where
  rely _ := Rely
  guar _ := Guar net
  idle _ _ := True
  post _ _ _ := True
  fail _ _ _ := True
  sem _ := Sem net
  sem_of_ok _ i c a _ hok hx := ⟨hx, hok.1.2 i c a rfl, hok.2⟩
  rely_refl _ _ _ _ h := h
  rely_trans _ _ _ _ h₁ h₂ id f h := h₂ id f (h₁ id f h)
  rely_of_guar _ _ _ _ _ _ _ h := h.1
  idle_stable _ _ _ _ h := h
  post_stable _ _ _ _ _ h := h
  fail_stable _ _ _ _ _ h := h
  start x i p hok _ := by
    obtain ⟨op, rfl⟩ := hok.1.1
    exact verified_code hnet op x.shared
  ret _ _ _ _ h := h
  raise _ _ _ _ h := h
  kill _ _ _ _ _ _ := trivial

end Outline

/-! ### An answer is given again -/

/-- The address of the attacker. -/
def elsewhere : String := "http://10.0.0.66:8445"

/-- The host `there` holds its key and is honest; the attacker owns an address and a key. -/
def twoHosts : Net Bool String where
  owner base := base ≠ elsewhere
  honest o := o = true
  holds o k := k = if o then "there's key" else "another key"
  signed k _ signature := signature = .str ("signed with " ++ k)
  listed text := [text]
  fpr k := "SHA256:" ++ k

theorem faithful_twoHosts : Faithful plainPlatform twoHosts where
  verify payload signature text h := by
    refine ⟨text, List.mem_singleton_self _, ?_⟩
    unfold plainPlatform at h
    cases signature with
    | str s => exact congrArg Json.str (of_decide_eq_true h)
    | _ => cases h
  fingerprint text f h := ⟨text, rfl, Option.some.inj h⟩

/-- What the host says of itself. -/
def selfInfo : Json :=
  .obj [("hostname", .str "there"), ("pubkey", .str "there's key"),
    ("wg_endpoint", .str "10.0.0.2:51820")]

/-- What everybody has seen of it. -/
def seen : Set (String × Json × Json) :=
  {("there's key", selfInfo, .str "signed with there's key")}

/-- Whether the step is admitted here: the address `base` is asked, and no pairing is
completed. -/
def asks (base : String) (s : State) : Cmd → Bool
  | .get url => url = base ++ selfInfoPath && !s.requests.isEmpty
  | .updatePeer _ (.complete ..) => false
  | _ => true

/-- From the first step on, everybody has seen the host's `self-info`; and the address
that is asked gives it. -/
def respondNet (base : String) (_ : Unit) (w : World String) (c : sig.Cmd) :
    Option (sig.Ans c × World String) :=
  ((surroundings (fun _ => (200, .obj [("payload", selfInfo),
    ("signature", .str "signed with there's key")])) w.store c).filter fun _ => asks base w.store c).map
      fun (a, s) => (a, ⟨s, w.said ∪ seen⟩)

/-- What is known of the state between two steps. -/
def SeenBy (w : World String) : Prop := w.store.requests = [] ∨ seen ⊆ w.said

theorem respondNet_exec {base : String} {i : Unit} {w w' : World String} {c : sig.Cmd}
    {a : sig.Ans c} (hw : SeenBy w) (h : respondNet base i w c = some (a, w')) :
    execNet twoHosts w c a w' ∧ SeenBy w' ∧
      (twoHosts.owner base = true → Trustworthy twoHosts w c a) := by
  obtain ⟨⟨a, s⟩, hs, heq⟩ := Option.map_eq_some_iff.mp h
  cases heq
  obtain ⟨hs, hasks⟩ := Option.filter_eq_some_iff.mp hs
  refine ⟨⟨exec_surroundings hs, Set.subset_union_left, ?_, ?_⟩, .inr Set.subset_union_right, ?_⟩
  · rintro m (hm | hm) hnew
    · exact absurd hm hnew
    · rw [Set.mem_singleton_iff.mp hm]
      rfl
  · cases c with
    | get url =>
      cases hs
      simp only [asks, Bool.and_eq_true, decide_eq_true_eq, Bool.not_eq_true'] at hasks
      intro base' hbase k hsigned
      -- the signature says whose it is
      obtain rfl : "there's key" = k := by
        have htext : "signed with there's key" = "signed with " ++ k := Json.str.inj hsigned
        exact (String.append_right_inj "signed with ").mp htext
      cases howner : twoHosts.owner base' with
      | true => exact .inl rfl
      | false =>
        refine .inr ⟨Bool.false_ne_true, selfInfo, ?_⟩
        rcases hw with hnone | hseen
        · rw [hnone] at hasks
          cases hasks.2
        · exact hseen (Set.mem_singleton _)
    | _ => trivial
  · intro howner
    cases c with
    | get url =>
      cases hs
      simp only [asks, Bool.and_eq_true, decide_eq_true_eq] at hasks
      intro base' text hbase _
      refine ⟨Nat.le_refl 1, fun hdishonest => absurd ?_ hdishonest⟩
      rw [hasks.1] at hbase
      rw [← (String.append_left_inj selfInfoPath).mp hbase]
      exact howner
    | updatePeer id u =>
      cases u with
      | complete => cases hasks
      | _ => trivial
    | _ => trivial

/-- The next step is to move the row to the address. -/
def moves (id url : String) : Option (Code Unit) → Bool
  | some (.call (.updatePeer id' (.address url' ..)) _) => id' = id && url' = url
  | _ => false

theorem exists_of_moves {id url : String} {t : Option (Code Unit)} (h : moves id url t = true) :
    ∃ wg e b k, t = some (.call (.updatePeer id (.address url wg e b)) k) := by
  unfold moves at h
  split at h
  next id' url' wg e b k =>
    simp only [Bool.and_eq_true, decide_eq_true_eq] at h
    obtain ⟨rfl, rfl⟩ := h
    exact ⟨wg, e, b, k, rfl⟩
  next => cases h

/-- The host is paired; then it is heard of elsewhere. -/
def heardOf (hit : Hit) : List (Turn sig Failure Unit Unit) :=
  approval ++ operate () (.reconcile "xx" hit) 1

theorem start_mem_heardOf {hit : Hit} {i : Unit} {p : Code Unit}
    (h : Turn.start i p ∈ heardOf hit) : ∃ op : Operation, p = op.code plainPlatform := by
  rcases List.mem_append.mp h with h | h
  · exact start_mem_approval h
  · exact ⟨_, start_mem_operate h⟩

/-- The row of the host is about to be moved, to the address it was heard of at. -/
theorem exists_move (hit : Hit) (base : String)
    (h : ((Config.play (respondNet base) (heardOf hit) (.idle ⟨.empty, ∅⟩)).map fun x =>
      moves "xx" base (x.thread ()) && x.shared.store.peers.any fun p =>
        p.id = "xx" ∧ p.pubkeyFpr = "SHA256:there's key") = some true) :
    ∃ x wg e b a y, Config.play (respondNet base) (heardOf hit) (.idle ⟨.empty, ∅⟩) = some x ∧
      Step (fun _ => execNet twoHosts) x
        (.call () (.updatePeer "xx" (.address base wg e b)) a) y ∧
      ∃ p ∈ x.shared.store.peers, p.id = "xx" ∧ p.pubkeyFpr = "SHA256:there's key" := by
  obtain ⟨x, hx, hnext⟩ := Option.map_eq_some_iff.mp h
  rw [Bool.and_eq_true, List.any_eq_true] at hnext
  obtain ⟨hmoves, p, hp, hrow⟩ := hnext
  obtain ⟨wg, e, b, k, ht⟩ := exists_of_moves hmoves
  let s := { x.shared.store with
    peers := setPeer x.shared.store.peers "xx" (.address base wg e b) }
  have hexec : execNet twoHosts x.shared (.updatePeer "xx" (.address base wg e b))
      (.ok (findPeer s.peers (some "xx"))) ⟨s, x.shared.said⟩ :=
    ⟨⟨rfl, rfl⟩, subset_rfl, fun m hm hnew => absurd hm hnew, trivial⟩
  exact ⟨x, wg, e, b, _, _, hx, .call ht hexec, p, hp, of_decide_eq_true hrow⟩

end Peers
end CloudCore
