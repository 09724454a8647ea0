import NodeReplication.UnboundedLog.Ownership

/-!
# Every round finishes and every request can be answered

No transition of the unbounded log waits on another node's combiner: each guard of a round is
met by what the round itself did, given the invariants. So from every reachable state:

* `RunBy`, `ExecRun`, `Step.execNode`: runs whose steps satisfy a predicate, such as the steps
  of one node's combiner round after its placements.
* `execStep_frame`, `ExecRun.frame`: those steps keep the log, the global tail and the reads,
  and move an update request only from placed to applied at its index.
* `loop_execRun`, `round_finishes`, `round_of_ready`, **`combiner_catches_up`**: any node's
  combiner, by its own steps alone, finishes its round and then replays the whole log, ending
  `ready` at the global tail with the version upper bound at least that tail.
* **`read_completes`**: every read request can be brought to `done`.
* **`update_completes`**: every update request can be brought to `done`, at the index it holds
  if it was placed.
-/

namespace NodeReplication.UnboundedLog

variable {S U R T : Type} [NRState S U R T]

/-! ## Runs of chosen steps -/

/-- The node whose combiner takes a step of a round after its placements. -/
def Step.execNode : Step U R → Option ℕ
  | .execTrivialStart n | .execLoadLocalVersion n | .execLoadGlobalHead n
  | .execDispatchLocal n | .execDispatchRemote n | .execUpdateVersionUpperBound n
  | .execFinish n => some n
  | _ => none

theorem run_append (s : State S U R T) (l₁ l₂ : List (Step U R)) :
    run s (l₁ ++ l₂) = (run s l₁).bind fun s' => run s' l₂ := by
  induction l₁ generalizing s with
  | nil => rfl
  | cons st l₁ ih =>
    show (next s st).bind (fun s' => run s' (l₁ ++ l₂)) =
      ((next s st).bind fun s' => run s' l₁).bind fun s' => run s' l₂
    rw [Option.bind_assoc]
    simp only [ih]

/-- `s'` is reached from `s` by a run whose steps all satisfy `P`. -/
def RunBy (P : Step U R → Prop) (s s' : State S U R T) : Prop :=
  ∃ sts : List (Step U R), (∀ st ∈ sts, P st) ∧ run s sts = some s'

/-- `s'` is reached from `s` by steps of node `n`'s combiner round that place nothing. -/
def ExecRun (n : ℕ) : State S U R T → State S U R T → Prop :=
  RunBy fun st => st.execNode = some n

section RunBy

variable {P Q : Step U R → Prop} {s₁ s₂ s₃ : State S U R T}

theorem RunBy.refl (P : Step U R → Prop) (s : State S U R T) : RunBy P s s :=
  ⟨[], fun _ h => absurd h (List.not_mem_nil _), rfl⟩

theorem RunBy.single (st : Step U R) (hP : P st) (hs : next s₁ st = some s₂) : RunBy P s₁ s₂ :=
  ⟨[st], fun _ h => by rw [List.mem_singleton.mp h]; exact hP,
    by simp only [run, hs, Option.some_bind]⟩

theorem RunBy.trans (h₁ : RunBy P s₁ s₂) (h₂ : RunBy P s₂ s₃) : RunBy P s₁ s₃ := by
  obtain ⟨l₁, hP₁, hr₁⟩ := h₁
  obtain ⟨l₂, hP₂, hr₂⟩ := h₂
  refine ⟨l₁ ++ l₂, fun st hst => (List.mem_append.mp hst).elim (hP₁ st) (hP₂ st), ?_⟩
  rw [run_append, hr₁, Option.some_bind]
  exact hr₂

theorem RunBy.mono (hPQ : ∀ st, P st → Q st) (h : RunBy P s₁ s₂) : RunBy Q s₁ s₂ :=
  let ⟨sts, hP, hr⟩ := h
  ⟨sts, fun st hst => hPQ st (hP st hst), hr⟩

theorem RunBy.reachable (hs : Reachable S s₁) (h : RunBy P s₁ s₂) : Reachable S s₂ :=
  let ⟨_, _, hr⟩ := h
  hs.run hr

theorem RunBy.cons (st : Step U R) (hP : P st) (hs : next s₁ st = some s₂) (h : RunBy P s₂ s₃) :
    RunBy P s₁ s₃ :=
  (RunBy.single st hP hs).trans h

/-- A run of chosen steps followed by one more step is a run. -/
theorem RunBy.snoc_any (h : RunBy P s₁ s₂) (st : Step U R) (hs : next s₂ st = some s₃) :
    RunBy (fun _ => True) s₁ s₃ :=
  (h.mono fun _ _ => trivial).trans (.single st trivial hs)

end RunBy

/-! ## What a round changes -/

/-- A request stays as it is, or goes from placed to applied at the same index. -/
def UpdateAdvance (u u' : Option (UpdateState U T)) : Prop :=
  u' = u ∨ ∃ op i ret, u = some (.placed op i) ∧ u' = some (.applied ret i)

section Advance

variable {u₁ u₂ u₃ : Option (UpdateState U T)}

theorem UpdateAdvance.trans (h₁ : UpdateAdvance u₁ u₂) (h₂ : UpdateAdvance u₂ u₃) :
    UpdateAdvance u₁ u₃ := by
  rcases h₁ with rfl | ⟨op, i, ret, rfl, rfl⟩
  · exact h₂
  · rcases h₂ with rfl | ⟨_, _, _, h, -⟩
    · exact .inr ⟨op, i, ret, rfl, rfl⟩
    · cases h

theorem UpdateAdvance.of_init {op : U} (h : UpdateAdvance u₁ u₂) (hu : u₁ = some (.init op)) :
    u₂ = some (.init op) := by
  rcases h with rfl | ⟨_, _, _, rfl, -⟩
  · exact hu
  · cases hu

theorem UpdateAdvance.of_placed {op : U} {i : ℕ} (h : UpdateAdvance u₁ u₂)
    (hu : u₁ = some (.placed op i)) :
    u₂ = some (.placed op i) ∨ ∃ ret, u₂ = some (.applied ret i) := by
  rcases h with rfl | ⟨_, _, ret, rfl, rfl⟩
  · exact .inl hu
  · cases hu
    exact .inr ⟨ret, rfl⟩

theorem UpdateAdvance.of_applied {ret : T} {i : ℕ} (h : UpdateAdvance u₁ u₂)
    (hu : u₁ = some (.applied ret i)) : u₂ = some (.applied ret i) := by
  rcases h with rfl | ⟨_, _, _, rfl, -⟩
  · exact hu
  · cases hu

end Advance

section Frame

variable {s s' : State S U R T} {n : ℕ}

/-- **One step of a round.** It keeps the log, the global tail and the read requests, and
changes an update request only from placed to applied at its index. -/
theorem execStep_frame (h : Inv s) :
    ∀ {st : Step U R}, st.execNode = some n → next s st = some s' →
      s'.log = s.log ∧ s'.globalTail = s.globalTail ∧ s'.localReads = s.localReads ∧
        ∀ rid, UpdateAdvance (s.localUpdates rid) (s'.localUpdates rid)
  | .execTrivialStart _, _, hs => by
    obtain ⟨_, rfl⟩ := execTrivialStart_eq_some hs
    exact ⟨rfl, rfl, rfl, fun _ => .inl rfl⟩
  | .execLoadLocalVersion _, _, hs => by
    obtain ⟨_, _, _, _, rfl⟩ := execLoadLocalVersion_eq_some hs
    exact ⟨rfl, rfl, rfl, fun _ => .inl rfl⟩
  | .execLoadGlobalHead _, _, hs => by
    obtain ⟨_, _, _, rfl⟩ := execLoadGlobalHead_eq_some hs
    exact ⟨rfl, rfl, rfl, fun _ => .inl rfl⟩
  | .execDispatchRemote _, _, hs => by
    obtain ⟨_, _, _, _, _, _, _, _, _, _, _, rfl⟩ := execDispatchRemote_eq_some hs
    exact ⟨rfl, rfl, rfl, fun _ => .inl rfl⟩
  | .execUpdateVersionUpperBound _, _, hs => by
    obtain ⟨_, _, _, _, rfl⟩ := execUpdateVersionUpperBound_eq_some hs
    exact ⟨rfl, rfl, rfl, fun _ => .inl rfl⟩
  | .execFinish _, _, hs => by
    obtain ⟨_, _, _, _, _, rfl⟩ := execFinish_eq_some hs
    exact ⟨rfl, rfl, rfl, fun _ => .inl rfl⟩
  | .execDispatchLocal _, _, hs => by
    obtain ⟨q, lversion, idx, _, _, _, e, hc, -, -, he, hlt, hn, rfl⟩ :=
      execDispatchLocal_eq_some hs
    refine ⟨rfl, rfl, rfl, fun rid => ?_⟩
    by_cases hrid : rid = q.getD idx 0
    · subst hrid
      exact .inr ⟨e.op, lversion, _, h.dispatched_placed hc hlt he hn, Function.update_same _ _ _⟩
    · exact .inl (Function.update_noteq hrid _ _)
  | .readonlyStart _ _, hn, _ | .readonlyReadCtail _, hn, _ | .readonlyReadyToRead _ _, hn, _
  | .readonlyApply _, hn, _ | .readonlyFinish _, hn, _ | .updateStart _ _, hn, _
  | .updatePlaceOpsInLogOne _ _, hn, _ | .updateDone _, hn, _ | .updateFinish _, hn, _ =>
    nomatch hn

/-- **A run of a round.** It keeps the log, the global tail and the read requests, and moves
update requests only from placed to applied at their index. -/
theorem ExecRun.frame (h : Reachable S s) (hr : ExecRun n s s') :
    s'.log = s.log ∧ s'.globalTail = s.globalTail ∧ s'.localReads = s.localReads ∧
      ∀ rid, UpdateAdvance (s.localUpdates rid) (s'.localUpdates rid) := by
  obtain ⟨sts, hP, hr⟩ := hr
  induction sts generalizing s with
  | nil =>
    cases hr
    exact ⟨rfl, rfl, rfl, fun _ => .inl rfl⟩
  | cons st sts ih =>
    obtain ⟨s₁, h₁, hr⟩ := Option.bind_eq_some.mp hr
    obtain ⟨hl₁, hg₁, hd₁, hu₁⟩ := execStep_frame h.inv (hP st (List.mem_cons_self _ _)) h₁
    obtain ⟨hl, hg, hd, hu⟩ :=
      ih (h.next st h₁) (fun st' hst' => hP st' (List.mem_cons_of_mem _ hst')) hr
    exact ⟨hl.trans hl₁, hg.trans hg₁, hd.trans hd₁, fun rid => (hu₁ rid).trans (hu rid)⟩

end Frame

/-! ## A round finishes on its own -/

section Round

variable {n : ℕ} {q : List ℕ}

/-- **The replay runs to its end.** From a replay at `lversion`, node `n`'s own dispatches, one
per entry up to the loaded tail, reach the end of the replay: each entry is in the log, and a
local one belongs to the placed request at the queue index. -/
theorem loop_execRun {gt : ℕ} :
    ∀ (k : ℕ) {s : State S U R T} {lversion idx : ℕ}, gt - lversion = k → Reachable S s →
      s.combiner n = some (.loop q lversion idx gt) →
      ∃ s' idx', ExecRun n s s' ∧ s'.combiner n = some (.loop q gt idx' gt)
  | 0, s, lversion, idx, hk, h, hc => by
    obtain ⟨_, -, -, -, -, -, hle, -⟩ := h.inv.node n _ hc
    obtain rfl : lversion = gt := by omega
    exact ⟨s, idx, RunBy.refl _ s, hc⟩
  | k + 1, s, lversion, idx, hk, h, hc => by
    have hinv := h.inv
    obtain ⟨_, -, -, hrep, hgt, -⟩ := hinv.node n _ hc
    have hlt : lversion < gt := by omega
    obtain ⟨e, he⟩ := hinv.log_some lversion (by omega)
    by_cases hn : e.nodeId = n
    · have hs := execDispatchLocal_eq hc hrep (hinv.dispatched_placed hc hlt he hn) he hlt hn
      obtain ⟨s', idx', hrun, hc'⟩ := loop_execRun k (by omega)
        (h.next (.execDispatchLocal n) hs) (Function.update_same _ _ _)
      exact ⟨s', idx', RunBy.cons (.execDispatchLocal n) rfl hs hrun, hc'⟩
    · have hs := execDispatchRemote_eq hc hrep he hlt hn
      obtain ⟨s', idx', hrun, hc'⟩ := loop_execRun k (by omega)
        (h.next (.execDispatchRemote n) hs) (Function.update_same _ _ _)
      exact ⟨s', idx', RunBy.cons (.execDispatchRemote n) rfl hs hrun, hc'⟩

variable {s : State S U R T}

/-- From `updated_version`, `exec_finish` publishes the loaded tail. -/
theorem round_of_updatedVersion (h : Reachable S s) {gt : ℕ}
    (hc : s.combiner n = some (.updatedVersion q gt)) :
    ∃ s', ExecRun n s s' ∧ s'.combiner n = some .ready ∧ s'.localVersions n = some gt ∧
      gt ≤ s'.versionUpperBound := by
  obtain ⟨lv, hlv, -, -, hgt, -⟩ := h.inv.node n _ hc
  exact ⟨_, RunBy.single (.execFinish n) rfl (execFinish_eq hc hlv),
    Function.update_same _ _ _, Function.update_same _ _ _, hgt⟩

/-- At the end of the replay, `exec_update_version_upper_bound` raises the bound to the loaded
tail, and the round finishes there. -/
theorem round_of_loopEnd (h : Reachable S s) {idx gt : ℕ}
    (hc : s.combiner n = some (.loop q gt idx gt)) :
    ∃ s', ExecRun n s s' ∧ s'.combiner n = some .ready ∧ s'.localVersions n = some gt ∧
      gt ≤ s'.versionUpperBound := by
  have hs := execUpdateVersionUpperBound_eq hc
  obtain ⟨s', hrun, hready⟩ := round_of_updatedVersion
    (h.next (.execUpdateVersionUpperBound n) hs) (Function.update_same _ _ _)
  exact ⟨s', RunBy.cons (.execUpdateVersionUpperBound n) rfl hs hrun, hready⟩

/-- A replay in progress runs to its end, and the round finishes at its loaded tail. -/
theorem round_of_loop (h : Reachable S s) {lversion idx gt : ℕ}
    (hc : s.combiner n = some (.loop q lversion idx gt)) :
    ∃ s', ExecRun n s s' ∧ s'.combiner n = some .ready ∧ s'.localVersions n = some gt ∧
      gt ≤ s'.versionUpperBound := by
  obtain ⟨s₁, _, hrun₁, hc₁⟩ := loop_execRun _ rfl h hc
  obtain ⟨s', hrun, hready⟩ := round_of_loopEnd (RunBy.reachable h hrun₁) hc₁
  exact ⟨s', RunBy.trans hrun₁ hrun, hready⟩

/-- After loading its local version, a round loads the global tail and finishes there. -/
theorem round_of_loaded (h : Reachable S s) {lversion : ℕ}
    (hc : s.combiner n = some (.loadedLocalVersion q lversion)) :
    ∃ s', ExecRun n s s' ∧ s'.combiner n = some .ready ∧
      s'.localVersions n = some s.globalTail ∧ s.globalTail ≤ s'.versionUpperBound := by
  have hs := execLoadGlobalHead_eq hc
  obtain ⟨s', hrun, hready⟩ :=
    round_of_loop (h.next (.execLoadGlobalHead n) hs) (Function.update_same _ _ _)
  exact ⟨s', RunBy.cons (.execLoadGlobalHead n) rfl hs hrun, hready⟩

/-- A placing round loads its local version and finishes at the global tail. -/
theorem round_of_placed (h : Reachable S s) (hc : s.combiner n = some (.placed q)) :
    ∃ s', ExecRun n s s' ∧ s'.combiner n = some .ready ∧
      s'.localVersions n = some s.globalTail ∧ s.globalTail ≤ s'.versionUpperBound := by
  obtain ⟨lv, hlv, -⟩ := h.inv.node n _ hc
  have hs := execLoadLocalVersion_eq hc hlv
  obtain ⟨s', hrun, hready⟩ :=
    round_of_loaded (h.next (.execLoadLocalVersion n) hs) (Function.update_same _ _ _)
  exact ⟨s', RunBy.cons (.execLoadLocalVersion n) rfl hs hrun, hready⟩

/-- A ready combiner runs a fresh round, which replays the log up to the global tail. -/
theorem round_of_ready (h : Reachable S s) (hc : s.combiner n = some .ready) :
    ∃ s', ExecRun n s s' ∧ s'.combiner n = some .ready ∧
      s'.localVersions n = some s.globalTail ∧ s.globalTail ≤ s'.versionUpperBound := by
  have hs := execTrivialStart_eq hc
  obtain ⟨s', hrun, hready⟩ :=
    round_of_placed (h.next (.execTrivialStart n) hs) (Function.update_same _ _ _)
  exact ⟨s', RunBy.cons (.execTrivialStart n) rfl hs hrun, hready⟩

/-- A combiner in any phase finishes its round by its own steps. -/
theorem round_finishes (h : Reachable S s) {c : CombinerState} (hc : s.combiner n = some c) :
    ∃ s', ExecRun n s s' ∧ s'.combiner n = some .ready := by
  cases c with
  | ready => exact ⟨s, RunBy.refl _ s, hc⟩
  | placed q => exact (round_of_placed h hc).imp fun _ h => ⟨h.1, h.2.1⟩
  | loadedLocalVersion q lversion => exact (round_of_loaded h hc).imp fun _ h => ⟨h.1, h.2.1⟩
  | loop q lversion idx gt => exact (round_of_loop h hc).imp fun _ h => ⟨h.1, h.2.1⟩
  | updatedVersion q gt => exact (round_of_updatedVersion h hc).imp fun _ h => ⟨h.1, h.2.1⟩

/-- A node finishes its round and runs a fresh one, which ends at the global tail it started
from. -/
theorem catch_up (h : Reachable S s) (hn : (s.combiner n).isSome) :
    ∃ s', ExecRun n s s' ∧ s'.combiner n = some .ready ∧
      s'.localVersions n = some s.globalTail ∧ s.globalTail ≤ s'.versionUpperBound ∧
      s'.log = s.log ∧ s'.globalTail = s.globalTail := by
  obtain ⟨c, hc⟩ := Option.isSome_iff_exists.mp hn
  obtain ⟨s₁, hrun₁, hc₁⟩ := round_finishes h hc
  have h₁ := RunBy.reachable h hrun₁
  obtain ⟨s', hrun, hready, hlv, hvub⟩ := round_of_ready h₁ hc₁
  obtain ⟨hlog₁, hgt₁, -⟩ := hrun₁.frame h
  obtain ⟨hlog, hgt, -⟩ := hrun.frame h₁
  rw [hgt₁] at hlv hvub
  exact ⟨s', RunBy.trans hrun₁ hrun, hready, hlv, hvub, hlog.trans hlog₁, hgt.trans hgt₁⟩

end Round

/-- **A combiner catches up with the log on its own.** From every reachable state, any node
with a combiner, by steps of its own combiner alone and whatever phase it is in, finishes its
round and replays the whole log: it ends `ready`, with its local version at the global tail and
its replica the replay of the whole log, and the version upper bound reaches the global tail.
The log and the global tail are as they were. -/
theorem combiner_catches_up {s : State S U R T} (h : Reachable S s) (n : ℕ)
    (hn : (s.combiner n).isSome) :
    ∃ sts s', (∀ st ∈ sts, st.execNode = some n) ∧ run s sts = some s' ∧
      s'.combiner n = some .ready ∧ s'.localVersions n = some s.globalTail ∧
      s'.replicas n = some (replayLog S s.log s.globalTail) ∧
      s.globalTail ≤ s'.versionUpperBound ∧ s'.log = s.log ∧ s'.globalTail = s.globalTail := by
  obtain ⟨s', ⟨sts, hsts, hrun⟩, hready, hlv, hvub, hlog, hgt⟩ := catch_up h hn
  have hrep := ((h.run hrun).inv.replica_eq hready).1
  rw [State.currentLocalVersion_eq hready hlv, hlog] at hrep
  exact ⟨sts, s', hsts, hrun, hready, hlv, hrep, hvub, hlog, hgt⟩

/-- Node `0` of a counter, in the middle of replaying the entry it placed, finishes its round. -/
theorem combiner_catches_up_counter :
    ∃ s : State ℕ Unit Unit ℕ, Reachable ℕ s ∧ s.combiner 0 = some (.loop [0] 0 0 1) ∧
      (s.combiner 0).isSome ∧
      ∃ sts s', (∀ st ∈ sts, st.execNode = some 0) ∧ run s sts = some s' ∧
        s'.combiner 0 = some .ready ∧ s'.localVersions 0 = some s.globalTail ∧
        s'.replicas 0 = some (replayLog ℕ s.log s.globalTail) ∧
        s.globalTail ≤ s'.versionUpperBound ∧ s'.log = s.log ∧ s'.globalTail = s.globalTail := by
  have hr := (Reachable.init 1).run (show run (init 1 : State ℕ Unit Unit ℕ)
    [.updateStart () 0, .execTrivialStart 0, .updatePlaceOpsInLogOne 0 0,
      .execLoadLocalVersion 0, .execLoadGlobalHead 0] = some _ from rfl)
  exact ⟨_, hr, rfl, rfl, combiner_catches_up hr 0 rfl⟩

/-! ## Requests are answered -/

section Requests

variable {s : State S U R T}

/-- A read that is ready on node `m` is applied once `m`'s combiner finishes its round. -/
theorem read_of_readyToRead (h : Reachable S s) {rid m v : ℕ} {op : R}
    (hr : s.localReads rid = some (.readyToRead op m v)) :
    ∃ s' ret, RunBy (fun _ => True) s s' ∧ s'.localReads rid = some (.done op ret m v) := by
  obtain ⟨-, lv, hlv, -⟩ := h.inv.read rid _ hr
  obtain ⟨c, hc⟩ := Option.isSome_iff_exists.mp
    ((h.localVersions_isSome m).symm.trans (by rw [hlv]; rfl))
  obtain ⟨s₁, hrun₁, hc₁⟩ := round_finishes h hc
  obtain ⟨-, -, hd₁, -⟩ := hrun₁.frame h
  obtain ⟨_, -, -, hrep, -⟩ := (RunBy.reachable h hrun₁).inv.node m _ hc₁
  have hr₁ : s₁.localReads rid = some (.readyToRead op m v) := by rw [hd₁]; exact hr
  have hs := readonlyApply_eq hr₁ hc₁ hrep
  exact ⟨_, _, RunBy.snoc_any hrun₁ (.readonlyApply rid) hs, Function.update_same _ _ _⟩

/-- A read that recorded the bound `v` becomes ready on a node that has caught up with the log,
which is past `v`, and is applied there. -/
theorem read_of_versionUpperBound (h : Reachable S s) {rid v n : ℕ} {op : R}
    (hr : s.localReads rid = some (.versionUpperBound op v)) (hn : (s.combiner n).isSome) :
    ∃ s' ret m v', RunBy (fun _ => True) s s' ∧ s'.localReads rid = some (.done op ret m v') := by
  have hv : v ≤ s.globalTail := (h.inv.read rid _ hr).trans h.inv.versionUpperBound_le
  obtain ⟨s₁, hrun₁, -, hlv₁, -⟩ := catch_up h hn
  obtain ⟨-, -, hd₁, -⟩ := hrun₁.frame h
  have hr₁ : s₁.localReads rid = some (.versionUpperBound op v) := by rw [hd₁]; exact hr
  have hs := readonlyReadyToRead_eq hr₁ hlv₁ hv
  obtain ⟨s', ret, hrun, hdone⟩ := read_of_readyToRead
    ((RunBy.reachable h hrun₁).next (.readonlyReadyToRead rid n) hs) (Function.update_same _ _ _)
  exact ⟨s', ret, n, v, (RunBy.snoc_any hrun₁ (.readonlyReadyToRead rid n) hs).trans hrun, hdone⟩

/-- **Every read request can be answered.** From every reachable state with a node, a read
request in any phase is brought to `done` by some run: it records the version upper bound, a
node catches up with the log and becomes ready for it, and the read runs there. -/
theorem read_completes (h : Reachable S s) (rid : ℕ) {r : ReadonlyState R T}
    (hr : s.localReads rid = some r) (n : ℕ) (hn : (s.combiner n).isSome) :
    ∃ sts s' op ret m v, run s sts = some s' ∧ s'.localReads rid = some (.done op ret m v) := by
  suffices ∃ s' op ret m v, RunBy (fun _ => True) s s' ∧
      s'.localReads rid = some (.done op ret m v) by
    obtain ⟨s', op, ret, m, v, ⟨sts, -, hrun⟩, hd⟩ := this
    exact ⟨sts, s', op, ret, m, v, hrun, hd⟩
  cases r with
  | init op =>
    have hs := readonlyReadCtail_eq hr
    obtain ⟨s', ret, m, v, hrun, hd⟩ := read_of_versionUpperBound
      (h.next (.readonlyReadCtail rid) hs) (Function.update_same _ _ _) hn
    exact ⟨s', op, ret, m, v, RunBy.cons (.readonlyReadCtail rid) trivial hs hrun, hd⟩
  | versionUpperBound op v =>
    obtain ⟨s', ret, m, v', hrun, hd⟩ := read_of_versionUpperBound h hr hn
    exact ⟨s', op, ret, m, v', hrun, hd⟩
  | readyToRead op m v =>
    obtain ⟨s', ret, hrun, hd⟩ := read_of_readyToRead h hr
    exact ⟨s', op, ret, m, v, hrun, hd⟩
  | done op ret m v => exact ⟨s, op, ret, m, v, RunBy.refl _ s, hr⟩

/-- A counter with one node and a read request that has just entered. -/
theorem read_completes_counter :
    ∃ s : State ℕ Unit Unit ℕ, Reachable ℕ s ∧ s.localReads 0 = some (.init ()) ∧
      (s.combiner 0).isSome ∧
      ∃ sts s' op ret m v, run s sts = some s' ∧ s'.localReads 0 = some (.done op ret m v) := by
  have hr := (Reachable.init 1).run
    (show run (init 1 : State ℕ Unit Unit ℕ) [.readonlyStart () 0] = some _ from rfl)
  exact ⟨_, hr, rfl, rfl, read_completes hr 0 rfl 0 rfl⟩

/-- An applied request is done once a node has caught up with the log, which lifts the version
upper bound past its index. -/
theorem update_of_applied (h : Reachable S s) {rid i n : ℕ} {ret : T}
    (hu : s.localUpdates rid = some (.applied ret i)) (hn : (s.combiner n).isSome) :
    ∃ s', RunBy (fun _ => True) s s' ∧ s'.localUpdates rid = some (.done ret i) := by
  have hi := h.inv.logIdx_lt hu rfl
  obtain ⟨s₁, hrun₁, -, -, hvub, -⟩ := catch_up h hn
  obtain ⟨-, -, -, hadv⟩ := hrun₁.frame h
  have hs := updateDone_eq ((hadv rid).of_applied hu) (by omega)
  exact ⟨_, RunBy.snoc_any hrun₁ (.updateDone rid) hs, Function.update_same _ _ _⟩

/-- A placed request is applied by the node that placed it once that node has caught up with
the log, which has passed its entry; it is then done. -/
theorem update_of_placed (h : Reachable S s) {rid i : ℕ} {op : U}
    (hu : s.localUpdates rid = some (.placed op i)) :
    ∃ s' ret, RunBy (fun _ => True) s s' ∧ s'.localUpdates rid = some (.done ret i) := by
  obtain ⟨m, he⟩ := h.inv.update rid _ hu
  have hi := h.inv.lt_globalTail he
  obtain ⟨s₁, hrun₁, hc₁, hlv₁, hvub₁, -⟩ := catch_up h (h.logNodesLive i _ he)
  obtain ⟨hlog₁, -, -, hadv⟩ := hrun₁.frame h
  obtain hp | ⟨ret, happ⟩ := (hadv rid).of_placed hu
  · -- still placed, though the replay of node `m` has passed its entry
    have he₁ : s₁.log i = some ⟨op, m⟩ := by rw [hlog₁]; exact he
    exact absurd ((RunBy.reachable h hrun₁).placedAhead rid op i m _ _ hp he₁ hc₁ hlv₁)
      (Nat.not_le.mpr hi)
  · have hs := updateDone_eq happ (by omega)
    exact ⟨_, ret, RunBy.snoc_any hrun₁ (.updateDone rid) hs, Function.update_same _ _ _⟩

/-- **Every update request can be answered.** From every reachable state with a node, an update
request in any phase is brought to `done` by some run, at the log index it holds if it holds
one: a waiting request is placed by a node that has finished its round, a placed one is applied
by the node that placed it, and an applied one is done once a node has caught up with the log. -/
theorem update_completes (h : Reachable S s) (rid : ℕ) {u : UpdateState U T}
    (hu : s.localUpdates rid = some u) (n : ℕ) (hn : (s.combiner n).isSome) :
    ∃ sts s' ret idx, run s sts = some s' ∧ s'.localUpdates rid = some (.done ret idx) ∧
      ∀ i, u.logIdx = some i → idx = i := by
  suffices ∃ s' ret idx, RunBy (fun _ => True) s s' ∧
      s'.localUpdates rid = some (.done ret idx) ∧ ∀ i, u.logIdx = some i → idx = i by
    obtain ⟨s', ret, idx, ⟨sts, -, hrun⟩, hd, hidx⟩ := this
    exact ⟨sts, s', ret, idx, hrun, hd, hidx⟩
  cases u with
  | init op =>
    -- node `n` finishes its round, starts a fresh one and places the request
    obtain ⟨c, hc⟩ := Option.isSome_iff_exists.mp hn
    obtain ⟨s₁, hrun₁, hc₁⟩ := round_finishes h hc
    obtain ⟨-, -, -, hadv⟩ := hrun₁.frame h
    obtain ⟨s₂, hs₂, hc₂, hu₂⟩ : ∃ s₂, execTrivialStart s₁ n = some s₂ ∧
        s₂.combiner n = some (.placed []) ∧ s₂.localUpdates = s₁.localUpdates :=
      ⟨_, execTrivialStart_eq hc₁, Function.update_same _ _ _, rfl⟩
    obtain ⟨s₃, hs₃, hu₃⟩ : ∃ s₃, updatePlaceOpsInLogOne s₂ n rid = some s₃ ∧
        s₃.localUpdates rid = some (.placed op s₂.globalTail) :=
      ⟨_, updatePlaceOpsInLogOne_eq hc₂ (by rw [hu₂]; exact (hadv rid).of_init hu),
        Function.update_same _ _ _⟩
    have h₃ := ((RunBy.reachable h hrun₁).next (.execTrivialStart n) hs₂).next
      (.updatePlaceOpsInLogOne n rid) hs₃
    obtain ⟨s', ret, hrun, hd⟩ := update_of_placed h₃ hu₃
    exact ⟨s', ret, _, (RunBy.snoc_any hrun₁ (.execTrivialStart n) hs₂).trans
      (RunBy.cons (.updatePlaceOpsInLogOne n rid) trivial hs₃ hrun), hd, fun _ hi => by cases hi⟩
  | placed op i =>
    obtain ⟨s', ret, hrun, hd⟩ := update_of_placed h hu
    exact ⟨s', ret, i, hrun, hd, fun _ hi => Option.some.inj hi⟩
  | applied ret i =>
    obtain ⟨s', hrun, hd⟩ := update_of_applied h hu hn
    exact ⟨s', ret, i, hrun, hd, fun _ hi => Option.some.inj hi⟩
  | done ret i => exact ⟨s, ret, i, RunBy.refl _ s, hu, fun _ hi => Option.some.inj hi⟩

end Requests

/-- A counter with one node and an update request that has just entered. -/
theorem update_completes_counter :
    ∃ s : State ℕ Unit Unit ℕ, Reachable ℕ s ∧ s.localUpdates 0 = some (.init ()) ∧
      (s.combiner 0).isSome ∧
      ∃ sts s' ret idx, run s sts = some s' ∧ s'.localUpdates 0 = some (.done ret idx) ∧
        ∀ i, (UpdateState.init () : UpdateState Unit ℕ).logIdx = some i → idx = i := by
  have hr := (Reachable.init 1).run
    (show run (init 1 : State ℕ Unit Unit ℕ) [.updateStart () 0] = some _ from rfl)
  exact ⟨_, hr, rfl, rfl, update_completes hr 0 rfl 0 rfl⟩

end NodeReplication.UnboundedLog
