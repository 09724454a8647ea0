import NodeReplication.CyclicBuffer.Invariant

/-!
# What a reader guards

A reader enters the range from its local head to the tail, guards and releases one index at a
time, and publishes the end of the range as its new local head.

* `GuardTrace`, `GuardTrace.step`, `traceRun`: the indices a node guards along a run, split into
  those of its finished reads and those of its read in progress.
* `PendingGuards`, **`traceRun_pendingGuards`**: the read in progress has guarded exactly the
  indices from its start up to its cursor.
* `GuardsCoverLocalHeads`, `finish_skips_guards`: `reader_do_finish` publishes the end of the
  range without checking that the cursor reached it, so a local head advances over indices its
  node never guarded.
* `ContentsMeetInv`, `ContentsMeetInv.run`, `GuardValuesMeetInv`, `guard_binds_value_outside_inv`:
  every step keeps `contents_meet_inv`, but `initialize` does not require it of the initial
  contents, and a reader can guard an index that was never deposited and bind the default
  value.
-/

namespace NodeReplication.CyclicBuffer

variable {σ : Type}

/-- The indices a node has guarded, in its reads ended by `reader_do_finish` and in its read in
progress. -/
structure GuardTrace where
  finished : List ℕ
  pending : List ℕ
  deriving DecidableEq

/-- How a step taken from `s` extends node `nodeId`'s guard trace: a guard records the cursor, a
finish moves the read's guards to the finished ones, an abort drops them. -/
def GuardTrace.step (nodeId : ℕ) (s : State σ) (g : GuardTrace) : Step σ → GuardTrace
  | .readerDoGuard n =>
    if n = nodeId then
      match s.combinerState n with
      | some (.reading (.range _ _ cur)) => ⟨g.finished, g.pending ++ [cur]⟩
      | _ => g
    else g
  | .readerDoFinish n => if n = nodeId then ⟨g.finished ++ g.pending, []⟩ else g
  | .readerDoAbort n => if n = nodeId then ⟨g.finished, []⟩ else g
  | _ => g

theorem GuardTrace.step_of_ne {nodeId : ℕ} {s : State σ} {g : GuardTrace} {st : Step σ}
    (hn : nodeId ≠ st.nodeId) : g.step nodeId s st = g := by
  cases st <;> simp only [GuardTrace.step, Step.nodeId] at hn ⊢ <;> simp [Ne.symm hn]

/-- The read in progress of node `nodeId` has guarded the indices from its start up to its
cursor, the cursor included while it is guarded; a node that is not reading has none. -/
def PendingGuards (nodeId : ℕ) (s : State σ) (pending : List ℕ) : Prop :=
  match s.combinerState nodeId with
  | some (.reading (.range start _ cur)) =>
    start ≤ cur ∧ pending = List.range' start (cur - start)
  | some (.reading (.guard start _ cur _)) =>
    start ≤ cur ∧ pending = List.range' start (cur + 1 - start)
  | _ => pending = []

section Runs

variable [Inhabited σ] (storedTypeInv : σ → ℤ → Bool)

/-- The state a run from `s` ends in, with node `nodeId`'s guard trace extended along it; `none`
if a step is not enabled. -/
def traceRun (nodeId : ℕ) : State σ → GuardTrace → List (Step σ) → Option (State σ × GuardTrace)
  | s, g, [] => some (s, g)
  | s, g, st :: sts =>
    (next storedTypeInv s st).bind fun s' => traceRun nodeId s' (g.step nodeId s st) sts

variable {storedTypeInv} {nodeId : ℕ}

/-- One step keeps the pending guards in line with the reader's cursor. -/
theorem PendingGuards.next {s s' : State σ} {g : GuardTrace}
    (h : PendingGuards nodeId s g.pending) {st : Step σ}
    (hs : next storedTypeInv s st = some s') :
    PendingGuards nodeId s' (g.step nodeId s st).pending := by
  obtain hn | hn := ne_or_eq nodeId st.nodeId
  · rw [GuardTrace.step_of_ne hn]
    unfold PendingGuards at h ⊢
    rwa [combinerState_next_of_ne hs hn]
  cases st <;> simp only [Step.nodeId] at hn <;> subst hn
  case readerDoGuard =>
    obtain ⟨start, end', cur, hc, -, rfl⟩ := readerDoGuard_eq_some hs
    simp only [PendingGuards, hc] at h
    obtain ⟨hle, hp⟩ := h
    have hlen : cur + 1 - start = cur - start + 1 := by omega
    simp only [PendingGuards, GuardTrace.step, hc, State.setCombiner_combinerState,
      Function.update_same, if_true, hp, hlen, List.range'_concat]
    exact ⟨hle, by congr 2; omega⟩
  case readerDoUnguard =>
    obtain ⟨start, end', cur, val, hc, rfl⟩ := readerDoUnguard_eq_some hs
    simp only [PendingGuards, hc] at h
    simp only [PendingGuards, GuardTrace.step, State.setCombiner_combinerState,
      Function.update_same]
    exact ⟨by omega, h.2⟩
  case readerDoFinish =>
    obtain ⟨_, _, _, _, _, _, rfl⟩ := readerDoFinish_eq_some hs
    simp [PendingGuards, GuardTrace.step]
  case readerDoAbort =>
    obtain ⟨_, rfl⟩ := readerDoAbort_eq_some hs
    simp [PendingGuards, GuardTrace.step]
  -- the other steps take the node from a phase without a read to another one
  case readerDoEnter =>
    obtain ⟨_, hc, rfl⟩ := readerDoEnter_eq_some hs
    simpa [PendingGuards, GuardTrace.step, hc] using h
  case readerDoStart =>
    obtain ⟨_, _, hc, rfl⟩ := readerDoStart_eq_some hs
    simpa [PendingGuards, GuardTrace.step, hc] using h
  case initAdvanceHead =>
    obtain ⟨_, _, hc, rfl⟩ := initAdvanceHead_eq_some hs
    simpa [PendingGuards, GuardTrace.step, hc] using h
  case stepAdvanceHead =>
    obtain ⟨_, _, _, hc, _, _, rfl⟩ := stepAdvanceHead_eq_some hs
    simpa [PendingGuards, GuardTrace.step, hc] using h
  case abandonAdvanceHead =>
    obtain ⟨_, _, hc, rfl⟩ := abandonAdvanceHead_eq_some hs
    simpa [PendingGuards, GuardTrace.step, hc] using h
  case finishAdvanceHead =>
    obtain ⟨_, hc, rfl⟩ := finishAdvanceHead_eq_some hs
    simpa [PendingGuards, GuardTrace.step, hc] using h
  case initAdvanceTail =>
    obtain ⟨_, hc, rfl⟩ := initAdvanceTail_eq_some hs
    simpa [PendingGuards, GuardTrace.step, hc] using h
  case abandonAdvanceTail =>
    obtain ⟨_, hc, rfl⟩ := abandonAdvanceTail_eq_some hs
    simpa [PendingGuards, GuardTrace.step, hc] using h
  case finishAdvanceTail =>
    obtain ⟨_, hc, _, _, rfl⟩ := finishAdvanceTail_eq_some hs
    simpa [PendingGuards, GuardTrace.step, hc] using h
  case appendFlipBit =>
    obtain ⟨_, _, _, hc, _, _, rfl⟩ := appendFlipBit_eq_some hs
    simpa [PendingGuards, GuardTrace.step, hc] using h
  case finishAppending =>
    obtain ⟨_, hc, rfl⟩ := finishAppending_eq_some hs
    simpa [PendingGuards, GuardTrace.step, hc] using h

/-- **The pending guards along a run.** After any run, the read a node has in progress has
guarded exactly the indices from its start up to its cursor. -/
theorem traceRun_pendingGuards {sts : List (Step σ)} :
    ∀ {s s' : State σ} {g g' : GuardTrace}, PendingGuards nodeId s g.pending →
      traceRun storedTypeInv nodeId s g sts = some (s', g') → PendingGuards nodeId s' g'.pending := by
  induction sts with
  | nil => intro _ _ _ _ h hr; cases hr; exact h
  | cons st sts ih =>
    intro _ _ _ _ h hr
    obtain ⟨_, h₁, hr⟩ := Option.bind_eq_some.mp hr
    exact ih (h.next h₁) hr

/-- Node `0` appends two entries, guards index `0`, releases it and guards index `1`: the read it
has in progress has guarded `0` and `1`. -/
theorem pendingGuards_two_entries :
    ∃ s : State Unit, s.combinerState 0 = some (.reading (.guard 0 2 1 ())) ∧
      PendingGuards 0 s [0, 1] := by
  have hrun := show traceRun (fun _ _ => true) 0 (init 2 1 (unitContents 2)) ⟨[], []⟩
    [.initAdvanceTail 0, .finishAdvanceTail 0 2, .appendFlipBit 0 (), .appendFlipBit 0 (),
      .finishAppending 0, .readerDoStart 0, .readerDoEnter 0, .readerDoGuard 0,
      .readerDoUnguard 0, .readerDoGuard 0] = some (_, ⟨[], [0, 1]⟩) from rfl
  exact ⟨_, rfl, traceRun_pendingGuards (by simp [PendingGuards, init]) hrun⟩

end Runs

/-- Along every run from an initial state, the indices each node guarded in its finished reads
are, in order, `0, 1, …, localHeads nodeId - 1`. -/
def GuardsCoverLocalHeads [Inhabited σ] (storedTypeInv : σ → ℤ → Bool) : Prop :=
  ∀ bufferSize numReplicas contents, InitialContents bufferSize contents →
    ∀ nodeId sts s g, traceRun storedTypeInv nodeId (init bufferSize numReplicas contents)
      ⟨[], []⟩ sts = some (s, g) →
      ∀ v, s.localHeads nodeId = some v → g.finished = List.range v

/-- One replica and one slot: node `0` appends one entry, enters the range `[0, 1)` and finishes
the read without guarding index `0`; its local head still becomes `1`. -/
theorem finish_skips_guards : ¬ GuardsCoverLocalHeads (fun (_ : Unit) _ => true) := fun h =>
  absurd (h 1 1 _ (initialContents_unitContents 1) 0
    [.initAdvanceTail 0, .finishAdvanceTail 0 1, .appendFlipBit 0 (), .finishAppending 0,
      .readerDoStart 0, .readerDoEnter 0, .readerDoFinish 0] _ _ rfl 1 rfl) (by decide)

/-! ## The values a reader guards -/

/-- Every entry of the buffer satisfies `stored_type_inv` (`contents_meet_inv`). -/
def ContentsMeetInv (storedTypeInv : σ → ℤ → Bool) (s : State σ) : Prop :=
  ∀ i v, s.contents i = some v → storedTypeInv v i = true

/-- Every value a guarding reader holds satisfies `stored_type_inv`, as `reader_do_guard`
asserts of the value it binds. -/
def GuardValuesMeetInv (storedTypeInv : σ → ℤ → Bool) (s : State σ) : Prop :=
  ∀ n start end' cur val, s.combinerState n = some (.reading (.guard start end' cur val)) →
    storedTypeInv val cur = true

section ContentsInv

variable [Inhabited σ] {storedTypeInv : σ → ℤ → Bool} {s s' : State σ}

omit [Inhabited σ] in
theorem ContentsMeetInv.of_contents_eq (h : ContentsMeetInv storedTypeInv s)
    (he : s'.contents = s.contents) : ContentsMeetInv storedTypeInv s' :=
  fun i v hv => h i v (he ▸ hv)

/-- One step keeps `contents_meet_inv`: `finish_advance_tail` only withdraws entries, and
`append_flip_bit` deposits only a value that satisfies `stored_type_inv`. -/
theorem ContentsMeetInv.next (h : ContentsMeetInv storedTypeInv s) :
    ∀ {st : Step σ}, next storedTypeInv s st = some s' → ContentsMeetInv storedTypeInv s'
  | .readerDoStart _, hs => by
    obtain ⟨_, _, _, rfl⟩ := readerDoStart_eq_some hs; exact h.of_contents_eq rfl
  | .readerDoEnter _, hs => by
    obtain ⟨_, _, rfl⟩ := readerDoEnter_eq_some hs; exact h.of_contents_eq rfl
  | .readerDoGuard _, hs => by
    obtain ⟨_, _, _, _, _, rfl⟩ := readerDoGuard_eq_some hs; exact h.of_contents_eq rfl
  | .readerDoUnguard _, hs => by
    obtain ⟨_, _, _, _, _, rfl⟩ := readerDoUnguard_eq_some hs; exact h.of_contents_eq rfl
  | .readerDoFinish _, hs => by
    obtain ⟨_, _, _, _, _, _, rfl⟩ := readerDoFinish_eq_some hs; exact h.of_contents_eq rfl
  | .readerDoAbort _, hs => by
    obtain ⟨_, rfl⟩ := readerDoAbort_eq_some hs; exact h.of_contents_eq rfl
  | .initAdvanceHead _, hs => by
    obtain ⟨_, _, _, rfl⟩ := initAdvanceHead_eq_some hs; exact h.of_contents_eq rfl
  | .stepAdvanceHead _, hs => by
    obtain ⟨_, _, _, _, _, _, rfl⟩ := stepAdvanceHead_eq_some hs; exact h.of_contents_eq rfl
  | .abandonAdvanceHead _, hs => by
    obtain ⟨_, _, _, rfl⟩ := abandonAdvanceHead_eq_some hs; exact h.of_contents_eq rfl
  | .finishAdvanceHead _, hs => by
    obtain ⟨_, _, rfl⟩ := finishAdvanceHead_eq_some hs; exact h.of_contents_eq rfl
  | .initAdvanceTail _, hs => by
    obtain ⟨_, _, rfl⟩ := initAdvanceTail_eq_some hs; exact h.of_contents_eq rfl
  | .abandonAdvanceTail _, hs => by
    obtain ⟨_, _, rfl⟩ := abandonAdvanceTail_eq_some hs; exact h.of_contents_eq rfl
  | .finishAppending _, hs => by
    obtain ⟨_, _, rfl⟩ := finishAppending_eq_some hs; exact h.of_contents_eq rfl
  | .finishAdvanceTail _ _, hs => by
    obtain ⟨_, _, _, _, rfl⟩ := finishAdvanceTail_eq_some hs
    intro i v hv
    dsimp only at hv
    split_ifs at hv
    exact h i v hv
  | .appendFlipBit _ _, hs => by
    obtain ⟨curIdx, _, _, _, _, hdep, rfl⟩ := appendFlipBit_eq_some hs
    intro i v hv
    dsimp only at hv
    rw [Function.update_apply] at hv
    split_ifs at hv with hi
    · cases hv; subst hi; exact hdep
    · exact h i v hv

/-- **Runs keep `contents_meet_inv`.** A run from a state whose entries satisfy
`stored_type_inv` ends in one whose entries satisfy it. -/
theorem ContentsMeetInv.run {s s' : State σ} (h : ContentsMeetInv storedTypeInv s) :
    ∀ {sts : List (Step σ)}, run storedTypeInv s sts = some s' → ContentsMeetInv storedTypeInv s'
  | [], hr => by cases hr; exact h
  | _ :: _, hr => by
    obtain ⟨_, h₁, hr⟩ := Option.bind_eq_some.mp hr
    exact (h.next h₁).run hr

end ContentsInv

/-- `initialize` accepts contents that break `stored_type_inv`. And from contents that meet it, a
reader guards an index that was never deposited. With one slot and three replicas, under
`stored_type_inv v i = (i != 1)`: replica `0` reserves index `0` and never fills it, replicas `1`
and `2` finish reads without guarding, replica `1` advances the head past the stuck replica `0`,
replica `2` reserves index `1`, and replica `1` guards index `1`, whose slot still holds the
initial alive bit, binding the default `()`. -/
theorem guard_binds_value_outside_inv :
    (∃ s : State Unit, Reachable (fun _ _ => false) s ∧ ¬ ContentsMeetInv (fun _ _ => false) s) ∧
    ∃ s : State Unit, Reachable (fun _ i => i != 1) s ∧ ContentsMeetInv (fun _ i => i != 1) s ∧
      ¬ GuardValuesMeetInv (fun _ i => i != 1) s := by
  refine ⟨⟨_, .init 1 1 _ (initialContents_unitContents 1), fun h => absurd (h (-1) () (by decide))
    (by decide)⟩, ?_⟩
  have hrun := show run (fun _ i => i != 1) (init 1 3 (unitContents 1))
    [.initAdvanceTail 0, .finishAdvanceTail 0 1, .readerDoStart 1, .readerDoEnter 1,
      .readerDoFinish 1, .readerDoStart 2, .readerDoEnter 2, .readerDoFinish 2,
      .initAdvanceHead 1, .stepAdvanceHead 1, .stepAdvanceHead 1, .finishAdvanceHead 1,
      .initAdvanceTail 2, .finishAdvanceTail 2 2, .readerDoStart 1, .readerDoEnter 1,
      .readerDoGuard 1] = some _ from rfl
  have hinit : ContentsMeetInv (fun _ i => i != 1) (init 1 3 (unitContents 1)) := by
    intro i v hv
    simp only [init, unitContents] at hv
    split_ifs at hv with h
    simp only [bne_iff_ne, ne_eq]
    omega
  exact ⟨_, (Reachable.init 1 3 _ (initialContents_unitContents 1)).run hrun,
    hinit.run hrun, fun h => absurd (h 1 1 2 1 () rfl) (by decide)⟩

end NodeReplication.CyclicBuffer
