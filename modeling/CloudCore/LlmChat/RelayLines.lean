import CloudCore.LlmChat.Relay

/-!
# What a relayed answer says

The text and the finish reason that `_relay_one_stream` returns, against the lines that it has written to
the client.  What a line says is read in a block whose exceptions skip the rest of the line, and the
contents are put together only at the end.

## Main definitions

* `content`, `finish` — what a line says.
* `Relayed` — the promise, for a run and all the lines it has written.
* `Fine` — a line that the loop understands.
* `Safe` — a line that does not break the relay off.

## Main results

* `relayed_iff` — **the promise is kept exactly if every line that was written is fine.**
* `raised_iff` — **a relay that is over has broken off exactly if a line that was written is not safe.**
* `timings_tell` — the timings are the last that a line has.
-/

namespace CloudCore
namespace Relay

open Formats Python

variable {cfg : Config} {t : Tick} {s s' : State} {ticks : List Tick}

/-! ### What a line says -/

/-- The chunk in a line. -/
def chunk? (cfg : Config) (line : List UInt8) : Option Json :=
  (payload? (textOf line)).bind fun payload => (cfg.loads payload).toOption

/-- What the delta of a choice holds under `content`, where it is a string. -/
def contentOf (choice : Json) : String :=
  match (deltaOf choice).get? "content" with
  | some (.str s) => s
  | _ => ""

/-- The content of the chunk in a line. -/
def content (cfg : Config) (line : List UInt8) : String :=
  ((chunk? cfg line).bind firstChoice).elim "" contentOf

/-- Its finish reason. -/
def finish (cfg : Config) (line : List UInt8) : Option Json :=
  ((chunk? cfg line).bind firstChoice).bind finishOf

/-- Its timings, which are read last. -/
def timing (cfg : Config) (line : List UInt8) : Option Json :=
  (chunk? cfg line).bind fun obj => (firstChoice obj).bind fun choice =>
    match choice, content? (deltaOf choice) with
    | .obj _, .ok _ => (obj.get? "timings").filter Json.truthy
    | _, _ => none

/-! ### What has been kept -/

def Outcome.state : Outcome → State
  | .on s | .returned _ _ s | .raised s => s

/-- What has been kept after a line; nothing more where it raises. -/
def afterLine (r : Option (Heard × Bool)) (h : Heard) : Heard := (r.map (·.1)).getD h

def tellLine (cfg : Config) (h : Heard) (line : List UInt8) : Heard := afterLine (hear cfg line h) h

/-- What is kept of some lines. -/
def tell (cfg : Config) (lines : List (List UInt8)) : Heard := lines.foldl (tellLine cfg) .empty

theorem tell_concat (lines : List (List UInt8)) (line : List UInt8) :
    tell cfg (lines ++ [line]) = tellLine cfg (tell cfg lines) line := by
  rw [tell, List.foldl_append]
  rfl

/-- What a turn does to the lines that were written: nothing, or one more was written. -/
inductive Writes (cfg : Config) (t : Tick) (s : State) : Outcome → Prop where
  | on {s' : State} : s'.sent = s.sent → s'.heard = s.heard →
      s'.buf ++ s'.reader.held = s.buf ++ (s.receive t).reader.held → Writes cfg t s (.on s')
  | left {s' : State} {stop : Stop} : s'.sent = s.sent → s'.heard = s.heard →
      s'.buf ++ s'.reader.held = s.buf ++ (s.receive t).reader.held →
      (stop = .finished → IsLine newline s'.buf ∧ isDone s'.buf = true ∨
        newline ∉ s'.buf ∧ s'.reader.held = []) → Writes cfg t s (s'.leave stop)
  | broken {s' : State} : t.fault = some .other → s'.sent = s.sent → s'.heard = s.heard →
      s'.buf ++ s'.reader.held = s.buf ++ (s.receive t).reader.held → Writes cfg t s (.raised s')
  | line {s' : State} {o : Outcome} : s'.sent = s.sent ++ [s.buf ++ [newline]] → s'.buf = [] →
      isDone (s.buf ++ [newline]) = false →
      s.buf ++ (s.receive t).reader.held = s.buf ++ [newline] ++ s'.reader.held →
      s'.heard = tellLine cfg s.heard (s.buf ++ [newline]) →
      (o = .on s' ∧ (hear cfg (s.buf ++ [newline]) s.heard).isSome = true ∨
        o = .raised s' ∧ hear cfg (s.buf ++ [newline]) s.heard = none) → Writes cfg t s o

theorem writes_wait : Writes cfg t s ((s.receive t).wait cfg) := by
  unfold State.wait
  split
  · exact .left rfl rfl rfl nofun
  · exact .on rfl rfl rfl

theorem writes (cfg : Config) (t : Tick) (hbuf : newline ∉ s.buf) : Writes cfg t s (turn cfg t s) := by
  have hbranch := branch cfg t s
  generalize turn cfg t s = o at hbranch
  cases hbranch with
  | interrupted _ => exact .left rfl rfl rfl nofun
  | idle _ => exact writes_wait
  | fault _ => exact writes_wait
  | raised hfault => exact .broken hfault rfl rfl rfl
  | blocked _ => exact .on rfl rfl rfl
  | eof hheld => exact .left rfl rfl rfl fun _ => Or.inr ⟨hbuf, hheld⟩
  | byte hread _ _ =>
    refine .on rfl rfl ?_
    rw [held_of_read hread]
    exact List.append_assoc _ _ _
  | @line reader hread _ =>
    have hheld : s.buf ++ (s.receive t).reader.held = s.buf ++ [newline] ++ reader.held := by
      rw [held_of_read hread, List.append_assoc]
      rfl
    unfold State.takeLine
    split
    · next hdone => exact .left rfl rfl hheld.symm fun _ => Or.inl ⟨⟨s.buf, hbuf, rfl⟩, hdone⟩
    · next hdone =>
      split
      · exact .left rfl rfl hheld.symm nofun
      · dsimp only
        split
        · next hnone =>
          refine .line rfl rfl ((Bool.not_eq_true _).mp hdone) hheld ?_ (Or.inr ⟨rfl, hnone⟩)
          exact (congrArg (afterLine · s.heard) hnone).symm
        · next heard content hsome =>
          refine .line rfl rfl ((Bool.not_eq_true _).mp hdone) hheld ?_ (Or.inl ⟨rfl, ?_⟩)
          · exact (congrArg (afterLine · s.heard) hsome).symm
          · exact congrArg Option.isSome hsome

/-! ### A line that is understood -/

/-- A chunk that is understood: its choice is a dictionary, its content a string, and where its delta
cannot be searched there is no finish reason to miss. -/
def FineObject (obj : Json) : Prop :=
  match firstChoice obj with
  | none => True
  | some choice =>
    match choice with
    | .obj _ =>
      match content? (deltaOf choice) with
      | .error _ => finishOf choice = none
      | .ok none => True
      | .ok (some v) => ∃ text, v = .str text
    | _ => False

/-- A line that is understood: `json.loads` reads it, or raises nothing but a `JSONDecodeError`. -/
def Fine (cfg : Config) (line : List UInt8) : Prop :=
  match payload? (textOf line) with
  | none => True
  | some payload =>
    match cfg.loads payload with
    | .error .decodeError => True
    | .error .other => False
    | .ok obj => FineObject obj

/-- What a line adds to what has been accumulated. -/
def kept (cfg : Config) (line : List UInt8) : List Json := (tellLine cfg .empty line).accumulated

/-- **A line neither ends the relay nor hides its finish reason,** whatever has been heard before. -/
def Heeded (cfg : Config) (line : List UInt8) : Prop :=
  ∀ h, ∃ heard content, hear cfg line h = some (heard, content) ∧
    heard.finishReason = (finish cfg line).or h.finishReason

theorem accumulated_tellLine (h : Heard) (line : List UInt8) :
    (tellLine cfg h line).accumulated = h.accumulated ++ kept cfg line := by
  have hobject : ∀ obj, (afterLine (hearObject obj h) h).accumulated =
      h.accumulated ++ (afterLine (hearObject obj .empty) .empty).accumulated := by
    intro obj
    unfold hearObject
    split
    · exact (List.append_nil _).symm
    · split
      · split
        · exact (List.append_nil _).symm
        · rfl
      · exact (List.append_nil _).symm
  unfold kept tellLine hear
  split
  · exact (List.append_nil _).symm
  · split
    · exact (List.append_nil _).symm
    · exact (List.append_nil _).symm
    · exact hobject _

theorem join_singleton (text : String) : join [.str text] = some text := by
  simp [join, str?, String.join]

/-- What is searched for in a delta is its content. -/
theorem join_content {choice : Json} {content : Option Json} (h : content? (deltaOf choice) = .ok content)
    (hstr : ∀ v, content = some v → ∃ text, v = .str text) :
    join content.toList = some (contentOf choice) := by
  unfold contentOf
  unfold content? at h
  split at h
  · next fields hdelta =>
    cases h
    rw [hdelta] at hstr ⊢
    cases hget : (Json.obj fields).get? "content" with
    | none => rfl
    | some v =>
      cases htruthy : v.truthy with
      | true =>
        rw [hget, Option.filter_some, if_pos htruthy] at hstr
        obtain ⟨text, rfl⟩ := hstr v rfl
        rw [Option.filter_some, if_pos htruthy]
        exact join_singleton text
      | false =>
        rw [Option.filter_some, if_neg (by rw [htruthy]; decide)]
        cases v with
        | str text =>
          have hempty : text = "" := by simpa [Json.truthy] using htruthy
          rw [hempty]
          rfl
        | _ => rfl
  · next items hdelta =>
    rw [hdelta]
    split at h
    · cases h
    · cases h
      rfl
  · next text hdelta =>
    rw [hdelta]
    split at h
    · cases h
    · cases h
      rfl
  · cases h

/-- A delta that cannot be searched has no content. -/
theorem contentOf_of_error {choice : Json} (h : content? (deltaOf choice) = .error ()) :
    contentOf choice = "" := by
  unfold content? at h
  unfold contentOf
  split at h
  · cases h
  · next items hdelta => rw [hdelta]; rfl
  · next text hdelta => rw [hdelta]; rfl
  · next hobj _ _ =>
    cases hdelta : deltaOf choice with
    | obj fields => exact absurd hdelta (hobj fields)
    | _ => rfl

/-- A chunk: what is kept of it, and whether it is understood. -/
theorem fineObject_iff (obj : Json) : FineObject obj ↔
    (∀ h, ∃ heard content, hearObject obj h = some (heard, content) ∧
      heard.finishReason = ((firstChoice obj).bind finishOf).or h.finishReason) ∧
    join (afterLine (hearObject obj .empty) .empty).accumulated =
      some ((firstChoice obj).elim "" contentOf) := by
  unfold FineObject hearObject
  cases hfirst : firstChoice obj with
  | none => exact iff_of_true trivial ⟨fun h => ⟨h, false, rfl, rfl⟩, rfl⟩
  | some choice =>
    cases choice with
    | obj fields =>
      dsimp only [Option.bind_some, Option.elim_some]
      cases hcontent : content? (deltaOf (.obj fields)) with
      | error e =>
        dsimp only
        constructor
        · intro hnone
          refine ⟨fun h => ⟨h, false, rfl, ?_⟩, ?_⟩
          · rw [hnone, Option.none_or]
          · rw [contentOf_of_error hcontent]
            rfl
        · rintro ⟨hheard, -⟩
          obtain ⟨heard, content, heq, hfinish⟩ := hheard .empty
          cases heq
          -- nothing was kept, so there was no finish reason
          cases hreason : finishOf (.obj fields) with
          | none => rfl
          | some reason =>
            rw [hreason] at hfinish
            cases hfinish
      | ok content =>
        dsimp only
        have hheard : ∀ h : Heard, ∃ heard b, some (h.add obj (.obj fields) content, content.isSome) =
            some (heard, b) ∧ heard.finishReason = (finishOf (.obj fields)).or h.finishReason :=
          fun h => ⟨_, _, rfl, rfl⟩
        cases content with
        | none => exact iff_of_true trivial ⟨hheard, join_content hcontent nofun⟩
        | some v =>
          constructor
          · rintro ⟨text, rfl⟩
            exact ⟨hheard, join_content hcontent fun w hw => ⟨text, (Option.some_inj.mp hw).symm⟩⟩
          · rintro ⟨-, hjoin⟩
            cases v with
            | str text => exact ⟨text, rfl⟩
            | _ => cases hjoin
    | _ =>
      refine iff_of_false id fun h => ?_
      obtain ⟨heard, content, heq, -⟩ := h.1 .empty
      cases heq

/-- **A line is fine exactly if it is heeded and its content can be put together.** -/
theorem fine_iff (line : List UInt8) :
    Fine cfg line ↔ Heeded cfg line ∧ join (kept cfg line) = some (content cfg line) := by
  unfold Fine Heeded kept tellLine hear content finish chunk?
  cases payload? (textOf line) with
  | none => exact iff_of_true trivial ⟨fun h => ⟨h, false, rfl, rfl⟩, rfl⟩
  | some payload =>
    dsimp only [Option.bind_some]
    cases cfg.loads payload with
    | error e =>
      cases e with
      | decodeError => exact iff_of_true trivial ⟨fun h => ⟨h, false, rfl, rfl⟩, rfl⟩
      | other =>
        refine iff_of_false id fun h => ?_
        obtain ⟨heard, content, heq, -⟩ := h.1 .empty
        cases heq
    | ok obj => exact fineObject_iff obj

/-! ### A line that is taken up -/

/-- A chunk that is taken up: its choice is a dictionary, and its content a string. -/
def SafeObject (obj : Json) : Prop :=
  match firstChoice obj with
  | none => True
  | some choice =>
    match choice with
    | .obj _ =>
      match content? (deltaOf choice) with
      | .ok (some v) => ∃ text, v = .str text
      | _ => True
    | _ => False

/-- A line that is taken up, or passed over. -/
def Safe (cfg : Config) (line : List UInt8) : Prop :=
  match payload? (textOf line) with
  | none => True
  | some payload =>
    match cfg.loads payload with
    | .error .decodeError => True
    | .error .other => False
    | .ok obj => SafeObject obj

theorem safeObject_iff (obj : Json) : SafeObject obj ↔ (∀ h, (hearObject obj h).isSome = true) ∧
    (join (afterLine (hearObject obj .empty) .empty).accumulated).isSome = true := by
  unfold SafeObject hearObject
  cases firstChoice obj with
  | none => exact iff_of_true trivial ⟨fun _ => rfl, rfl⟩
  | some choice =>
    cases choice with
    | obj fields =>
      dsimp only
      cases content? (deltaOf (.obj fields)) with
      | error e => exact iff_of_true trivial ⟨fun _ => rfl, rfl⟩
      | ok content =>
        cases content with
        | none => exact iff_of_true trivial ⟨fun _ => rfl, rfl⟩
        | some v =>
          cases v with
          | str text => exact iff_of_true ⟨text, rfl⟩ ⟨fun _ => rfl, rfl⟩
          | _ => exact iff_of_false (fun ⟨_, h⟩ => by cases h) fun h => Bool.false_ne_true h.2
    | _ => exact iff_of_false id fun h => Bool.false_ne_true (h.1 .empty)

theorem safe_iff (line : List UInt8) : Safe cfg line ↔
    (∀ h, (hear cfg line h).isSome = true) ∧ (join (kept cfg line)).isSome = true := by
  unfold Safe kept tellLine hear
  cases payload? (textOf line) with
  | none => exact iff_of_true trivial ⟨fun _ => rfl, rfl⟩
  | some payload =>
    dsimp only
    cases cfg.loads payload with
    | error e =>
      cases e with
      | decodeError => exact iff_of_true trivial ⟨fun _ => rfl, rfl⟩
      | other => exact iff_of_false id fun h => Bool.false_ne_true (h.1 .empty)
    | ok obj => exact safeObject_iff obj

/-- Whether a line breaks the relay off does not depend on what has been heard. -/
theorem isSome_hear (line : List UInt8) (h h' : Heard) :
    (hear cfg line h).isSome = (hear cfg line h').isSome := by
  have hobject : ∀ obj, (hearObject obj h).isSome = (hearObject obj h').isSome := by
    intro obj
    unfold hearObject
    split
    · rfl
    · split
      · split <;> rfl
      · rfl
  unfold hear
  split
  · rfl
  · split
    · rfl
    · rfl
    · exact hobject _

/-! ### What all lines say -/

theorem join_append (xs ys : List Json) :
    join (xs ++ ys) = (join xs).bind fun text => (join ys).map (text ++ ·) := by
  unfold join
  rw [List.mapM_append]
  cases xs.mapM str? with
  | none => rfl
  | some texts =>
    cases ys.mapM str? with
    | none => rfl
    | some texts' => exact congrArg some String.join_append

/-- A content that can be put together is the one that the line says. -/
theorem join_kept {line : List UInt8} {text : String} (h : join (kept cfg line) = some text) :
    text = content cfg line := by
  have hobject : ∀ obj, join (afterLine (hearObject obj .empty) .empty).accumulated = some text →
      text = (firstChoice obj).elim "" contentOf := by
    intro obj h
    unfold hearObject at h
    split at h
    · next hfirst =>
      rw [hfirst]
      exact (Option.some_inj.mp h).symm
    · next choice hfirst =>
      rw [hfirst]
      cases choice with
      | obj fields =>
        dsimp only at h
        split at h
        · next hcontent => exact (Option.some_inj.mp h).symm.trans (contentOf_of_error hcontent).symm
        · next content hcontent =>
          refine Option.some_inj.mp (h.symm.trans (join_content hcontent fun v hv => ?_))
          rw [hv] at h
          cases v with
          | str text => exact ⟨text, rfl⟩
          | _ => cases h
      | _ => exact (Option.some_inj.mp h).symm
  unfold kept tellLine hear at h
  unfold content chunk?
  cases hpayload : payload? (textOf line) with
  | none =>
    rw [hpayload] at h
    exact (Option.some_inj.mp h).symm
  | some payload =>
    simp only [hpayload] at h
    simp only [Option.bind_some]
    cases hloads : cfg.loads payload with
    | error e =>
      rw [hloads] at h
      cases e with
      | decodeError => exact (Option.some_inj.mp h).symm
      | other => exact (Option.some_inj.mp h).symm
    | ok obj =>
      rw [hloads] at h
      exact hobject obj h

theorem accumulated_tell (lines : List (List UInt8)) :
    (tell cfg lines).accumulated = lines.flatMap (kept cfg) := by
  induction lines using List.reverseRecOn with
  | nil => rfl
  | append_singleton lines line ih =>
    rw [tell_concat, accumulated_tellLine, ih, List.flatMap_append, List.flatMap_singleton]

/-- **What is put together at the end is what the lines say exactly if each can be put together.** -/
theorem join_tell_iff (lines : List (List UInt8)) :
    join (tell cfg lines).accumulated = some (String.join (lines.map (content cfg))) ↔
      ∀ line ∈ lines, join (kept cfg line) = some (content cfg line) := by
  rw [accumulated_tell]
  induction lines with
  | nil => exact iff_of_true rfl nofun
  | cons line lines ih =>
    rw [List.flatMap_cons, join_append, List.forall_mem_cons, ← ih]
    constructor
    · intro h
      obtain ⟨text, htext, hrest⟩ := Option.bind_eq_some_iff.mp h
      obtain ⟨more, hmore, heq⟩ := Option.map_eq_some_iff.mp hrest
      obtain rfl := join_kept htext
      refine ⟨htext, hmore.trans (congrArg some ?_)⟩
      rw [List.map_cons, String.join_cons] at heq
      exact String.append_right_inj _ |>.mp heq
    · rintro ⟨hline, hlines⟩
      rw [hline, hlines, List.map_cons, String.join_cons]
      rfl

/-- What there is can be put together exactly if what each line has can. -/
theorem isSome_join_tell (lines : List (List UInt8)) :
    (join (tell cfg lines).accumulated).isSome = true ↔ ∀ line ∈ lines, (join (kept cfg line)).isSome = true := by
  rw [accumulated_tell]
  induction lines with
  | nil => exact iff_of_true rfl nofun
  | cons line lines ih =>
    rw [List.flatMap_cons, join_append, List.forall_mem_cons, ← ih]
    cases join (kept cfg line) with
    | none => exact iff_of_false Bool.false_ne_true fun h => Bool.false_ne_true h.1
    | some text =>
      rw [Option.bind_some, Option.isSome_map]
      exact (and_iff_right rfl).symm

theorem timings_tellLine (h : Heard) (line : List UInt8) :
    (tellLine cfg h line).timings = (timing cfg line).or h.timings := by
  have hobject : ∀ obj, (afterLine (hearObject obj h) h).timings =
      ((firstChoice obj).bind fun choice =>
        match choice, content? (deltaOf choice) with
        | .obj _, .ok _ => (obj.get? "timings").filter Json.truthy
        | _, _ => none).or h.timings := by
    intro obj
    unfold hearObject
    cases firstChoice obj with
    | none => rfl
    | some choice =>
      cases choice with
      | obj fields =>
        dsimp only [Option.bind_some]
        cases content? (deltaOf (.obj fields)) <;> rfl
      | _ => rfl
  unfold tellLine hear timing chunk?
  cases payload? (textOf line) with
  | none => rfl
  | some payload =>
    dsimp only [Option.bind_some]
    cases cfg.loads payload with
    | error e => cases e <;> rfl
    | ok obj => exact hobject obj

/-- **The timings are the last that a line has.** -/
theorem timings_tell (lines : List (List UInt8)) :
    (tell cfg lines).timings = (lines.filterMap (timing cfg)).getLast? := by
  induction lines using List.reverseRecOn with
  | nil => rfl
  | append_singleton lines line ih =>
    rw [tell_concat, timings_tellLine, ih, List.filterMap_append, List.getLast?_append, List.filterMap_cons,
      List.filterMap_nil]
    cases timing cfg line <;> rfl

/-- The finish reason is that of the last line that has one. -/
theorem finishReason_tell {lines : List (List UInt8)} (h : ∀ line ∈ lines, Heeded cfg line) :
    (tell cfg lines).finishReason = (lines.filterMap (finish cfg)).getLast? := by
  induction lines using List.reverseRecOn with
  | nil => rfl
  | append_singleton lines line ih =>
    obtain ⟨hlines, hline⟩ := List.forall_mem_append.mp h
    obtain ⟨heard, content, heq, hfinish⟩ := hline line (List.mem_singleton_self line) (tell cfg lines)
    rw [tell_concat, tellLine, heq, List.filterMap_append, List.getLast?_append, ← ih hlines]
    refine hfinish.trans ?_
    rw [List.filterMap_cons, List.filterMap_nil]
    cases finish cfg line <;> rfl

/-! ### The promise -/

theorem heard_run (hrun : run cfg ticks = .on s) : s.heard = tell cfg s.sent := by
  refine run_induction (P := fun _ s => s.heard = tell cfg s.sent) rfl ?_ hrun
  intro ticks t s s' hbefore ih hturn
  have hwrites := writes cfg t (sound_run hbefore).buf
  rw [hturn] at hwrites
  generalize ho : Outcome.on s' = o at hwrites
  cases hwrites with
  | on hsent hheard _ =>
    cases ho
    rw [hheard, hsent, ih]
  | left _ _ _ _ => exact absurd ho.symm leave_ne_on
  | broken _ _ _ _ => cases ho
  | line hsent _ _ _ hheard hline =>
    obtain ⟨rfl, -⟩ | ⟨rfl, -⟩ := hline
    · cases ho
      rw [hheard, hsent, tell_concat, ih]
    · cases ho

/-- As long as the loop goes on, no line has broken it off. -/
theorem taken_run (hrun : run cfg ticks = .on s) : ∀ line ∈ s.sent, ∀ h, (hear cfg line h).isSome = true := by
  refine run_induction (P := fun _ s => ∀ line ∈ s.sent, ∀ h, (hear cfg line h).isSome = true) nofun ?_ hrun
  intro ticks t s s' hbefore ih hturn
  have hwrites := writes cfg t (sound_run hbefore).buf
  rw [hturn] at hwrites
  generalize ho : Outcome.on s' = o at hwrites
  cases hwrites with
  | on hsent _ _ =>
    cases ho
    rw [hsent]
    exact ih
  | left _ _ _ _ => exact absurd ho.symm leave_ne_on
  | broken _ _ _ _ => cases ho
  | line hsent _ _ _ _ hline =>
    obtain ⟨rfl, hsome⟩ | ⟨rfl, -⟩ := hline
    · cases ho
      rw [hsent]
      refine List.forall_mem_append.mpr ⟨ih, List.forall_mem_singleton.mpr fun h => ?_⟩
      exact (isSome_hear _ h s.heard).trans hsome
    · cases ho

/-- **The promise,** for the turn that ends in `o`, when these bytes have arrived. -/
structure Relayed (cfg : Config) (bytes : List UInt8) (o : Outcome) : Prop where
  /-- The relay does not break off. -/
  goesOn : ∀ s, o ≠ .raised s
  /-- The text is what the lines say that were written. -/
  text : join o.state.heard.accumulated = some (String.join (o.state.sent.map (content cfg))) ∧
    ∀ stop text s, o = .returned stop text s → text = String.join (s.sent.map (content cfg))
  /-- The lines that were written are the first ones that have arrived, each once, and the end of the
  answer is not among them; at its end there is no other line. -/
  lines : o.state.sent <+: ended newline bytes ∧ (∀ line ∈ o.state.sent, isDone line = false) ∧
    ∀ text s, o = .returned .finished text s → ended newline bytes = s.sent ∨
      ∃ line rest, ended newline bytes = s.sent ++ line :: rest ∧ isDone line = true
  /-- No line ends the relay or hides its finish reason. -/
  heeded : ∀ line ∈ o.state.sent, Heeded cfg line
  /-- The finish reason is the last one that a line has. -/
  finish : o.state.heard.finishReason = (o.state.sent.filterMap (finish cfg)).getLast?

theorem state_leave {stop : Stop} : (s.leave stop).state = s := by
  unfold State.leave
  split <;> rfl

theorem leave_raised {stop : Stop} (h : s.leave stop = .raised s') :
    s' = s ∧ join s.heard.accumulated = none := by
  unfold State.leave at h
  split at h
  · cases h
  · next hnone =>
    cases h
    exact ⟨rfl, hnone⟩

/-- What there is of the lines after a turn, however it ends. -/
structure Parted (cfg : Config) (bytes : List UInt8) (o : Outcome) : Prop where
  heard : o.state.heard = tell cfg o.state.sent
  lines : ∀ line ∈ o.state.sent, IsLine newline line ∧ isDone line = false
  bytes : bytes = o.state.sent.flatten ++ (o.state.buf ++ o.state.reader.held)

theorem parted (t : Tick) (hrun : run cfg ticks = .on s) : Parted cfg (arrived (ticks ++ [t])) (turn cfg t s) := by
  have hheard := heard_run hrun
  have hsound := sound_run hrun
  have hbytes : arrived (ticks ++ [t]) = s.sent.flatten ++ (s.buf ++ (s.receive t).reader.held) :=
    (arrived_concat ticks t).trans (hsound.receive t).bytes
  rw [hbytes]
  have hwrites := writes cfg t hsound.buf
  generalize turn cfg t s = o at hwrites
  have hsame : ∀ s' : State, s'.sent = s.sent → s'.heard = s.heard →
      s'.buf ++ s'.reader.held = s.buf ++ (s.receive t).reader.held →
      s'.heard = tell cfg s'.sent ∧ (∀ line ∈ s'.sent, IsLine newline line ∧ isDone line = false) ∧
        s.sent.flatten ++ (s.buf ++ (s.receive t).reader.held) =
          s'.sent.flatten ++ (s'.buf ++ s'.reader.held) := by
    intro s' hsent hheard' hheld
    rw [hsent, hheard', hheld]
    exact ⟨hheard, hsound.lines, rfl⟩
  cases hwrites with
  | on hsent hheard' hheld =>
    obtain ⟨h₁, h₂, h₃⟩ := hsame _ hsent hheard' hheld
    exact ⟨h₁, h₂, h₃⟩
  | left hsent hheard' hheld _ =>
    obtain ⟨h₁, h₂, h₃⟩ := hsame _ hsent hheard' hheld
    refine ⟨?_, ?_, ?_⟩ <;> rw [state_leave]
    · exact h₁
    · exact h₂
    · exact h₃
  | broken _ hsent hheard' hheld =>
    obtain ⟨h₁, h₂, h₃⟩ := hsame _ hsent hheard' hheld
    exact ⟨h₁, h₂, h₃⟩
  | @line s' o hsent hbuf hdone hheld hheard' hline =>
    have hstate : o.state = s' := by
      obtain ⟨rfl, -⟩ | ⟨rfl, -⟩ := hline <;> rfl
    refine ⟨?_, ?_, ?_⟩ <;> rw [hstate]
    · rw [hheard', hsent, tell_concat, hheard]
    · rw [hsent]
      exact List.forall_mem_append.mpr ⟨hsound.lines,
        List.forall_mem_singleton.mpr ⟨⟨s.buf, hsound.buf, rfl⟩, hdone⟩⟩
    · rw [hheld, hsent, hbuf, List.flatten_append, List.flatten_singleton, List.nil_append, List.append_assoc,
        List.append_assoc, List.append_assoc]

/-- **A relay that is over has broken off exactly if a line that was written is not safe.** -/
theorem raised_iff (t : Tick) (hrun : run cfg ticks = .on s)
    (hfault : ∀ s', turn cfg t s = .raised s' → t.fault ≠ some .other) (hover : ∀ s', turn cfg t s ≠ .on s') :
    (∀ s', turn cfg t s ≠ .raised s') ↔ ∀ line ∈ (turn cfg t s).state.sent, Safe cfg line := by
  have hwrites := writes cfg t (sound_run hrun).buf
  have htaken := taken_run hrun
  have hheard := heard_run hrun
  generalize turn cfg t s = o at hwrites hover hfault
  cases hwrites with
  | on _ _ _ => exact absurd rfl (hover _)
  | broken hbroken _ _ _ => exact absurd hbroken (hfault _ rfl)
  | @left s' stop hsent hheard' _ _ =>
    have hjoin : (join s'.heard.accumulated).isSome = true ↔ ∀ line ∈ s.sent, Safe cfg line := by
      rw [hheard', hheard, isSome_join_tell]
      refine forall₂_congr fun line hline => ?_
      rw [safe_iff]
      exact (and_iff_right (htaken line hline)).symm
    rw [state_leave, hsent, ← hjoin]
    unfold State.leave
    cases join s'.heard.accumulated with
    | some text => exact iff_of_true nofun rfl
    | none => exact iff_of_false (fun h => h s' rfl) Bool.false_ne_true
  | line hsent _ _ _ _ hline =>
    obtain ⟨rfl, -⟩ | ⟨rfl, hnone⟩ := hline
    · exact absurd rfl (hover _)
    · refine iff_of_false (fun h => h _ rfl) fun h => ?_
      have hsafe := h _ (hsent ▸ List.mem_append_right _ (List.mem_singleton_self _))
      have hsome := ((safe_iff _).mp hsafe).1 s.heard
      rw [hnone] at hsome
      cases hsome

/-- An answer that has ended: its end is the next line, or there is none. -/
theorem ended_of_finished (hrun : run cfg ticks = .on s) {text : String}
    (hturn : turn cfg t s = .returned .finished text s') :
    ended newline (arrived (ticks ++ [t])) = s'.sent ∨
      ∃ line rest, ended newline (arrived (ticks ++ [t])) = s'.sent ++ line :: rest ∧ isDone line = true := by
  have hparted := parted t hrun
  have hwrites := writes cfg t (sound_run hrun).buf
  rw [hturn] at hparted hwrites
  have hended : ended newline (arrived (ticks ++ [t])) =
      s'.sent ++ ended newline (s'.buf ++ s'.reader.held) := by
    rw [hparted.bytes]
    exact ended_flatten (fun line hline => (hparted.lines line hline).1) _
  rw [hended]
  generalize ho : Outcome.returned .finished text s' = o at hwrites
  cases hwrites with
  | on _ _ _ => cases ho
  | broken _ _ _ _ => cases ho
  | line _ _ _ _ _ hline =>
    obtain ⟨rfl, -⟩ | ⟨rfl, -⟩ := hline <;> cases ho
  | left _ _ _ hend =>
    obtain ⟨rfl, rfl, -⟩ := leave_returned ho.symm
    obtain ⟨hline, hdone⟩ | ⟨hbuf, hheld⟩ := hend rfl
    · rw [ended_line hline]
      exact Or.inr ⟨s'.buf, _, rfl, hdone⟩
    · rw [hheld, List.append_nil, ended_of_not_mem hbuf, List.append_nil]
      exact Or.inl rfl

/-- **The promise is kept exactly if every line that was written is fine,** in every turn of every run
in which the answer can be read. -/
theorem relayed_iff (cfg : Config) (ticks : List Tick) (t : Tick) (s : State) (hrun : run cfg ticks = .on s)
    (hfault : t.fault ≠ some .other) :
    Relayed cfg (arrived (ticks ++ [t])) (turn cfg t s) ↔
      ∀ line ∈ (turn cfg t s).state.sent, Fine cfg line := by
  have hparted := parted t hrun
  constructor
  · intro h line hline
    have htext := h.text.1
    rw [hparted.heard] at htext
    exact (fine_iff line).mpr ⟨h.heeded line hline, (join_tell_iff _).mp htext line hline⟩
  · intro hfine
    have hheeded := fun line hline => ((fine_iff line).mp (hfine line hline)).1
    have hjoin : join (turn cfg t s).state.heard.accumulated =
        some (String.join ((turn cfg t s).state.sent.map (content cfg))) := by
      rw [hparted.heard]
      exact (join_tell_iff _).mpr fun line hline => ((fine_iff line).mp (hfine line hline)).2
    have hwrites := writes cfg t (sound_run hrun).buf
    refine ⟨?_, ⟨hjoin, ?_⟩, ⟨?_, fun line hline => (hparted.lines line hline).2, ?_⟩, hheeded, ?_⟩
    · intro s' hturn
      rw [hturn] at hwrites hjoin hheeded
      generalize ho : Outcome.raised s' = o at hwrites
      cases hwrites with
      | on _ _ _ => cases ho
      | broken hbroken _ _ _ => exact hfault hbroken
      | left _ _ _ _ =>
        obtain ⟨rfl, hnone⟩ := leave_raised ho.symm
        cases hnone.symm.trans hjoin
      | line hsent _ _ _ _ hline =>
        obtain ⟨rfl, -⟩ | ⟨rfl, hnone⟩ := hline
        · cases ho
        · cases ho
          obtain ⟨_, _, hsome, -⟩ := hheeded _ (hsent ▸ List.mem_append_right _ (List.mem_singleton_self _)) s.heard
          cases hnone.symm.trans hsome
    · intro stop text s' hturn
      rw [hturn] at hwrites hjoin
      generalize ho : Outcome.returned stop text s' = o at hwrites
      cases hwrites with
      | on _ _ _ => cases ho
      | broken _ _ _ _ => cases ho
      | left _ _ _ _ =>
        obtain ⟨rfl, rfl, htext⟩ := leave_returned ho.symm
        exact Option.some_inj.mp (htext.symm.trans hjoin)
      | line _ _ _ _ _ hline =>
        obtain ⟨rfl, -⟩ | ⟨rfl, -⟩ := hline <;> cases ho
    · rw [hparted.bytes, ended_flatten fun line hline => (hparted.lines line hline).1]
      exact List.prefix_append _ _
    · intro text s' hturn
      exact ended_of_finished hrun hturn
    · rw [hparted.heard]
      exact finishReason_tell hheeded

end Relay
end CloudCore
