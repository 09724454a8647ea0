import NodeReplication.UnboundedLog.Invariant

/-!
# Replicas, updates and reads follow the sequential execution of the log

Every result here is a corollary of `Reachable.inv`: it holds in every state reachable from
`init` by any interleaving of the transitions of any nodes and requests.

* **`replica_eq_replayLog`**: a replica is the replay of the log up to its current local
  version, which lies below the global tail; two replicas at one version agree.
* **`update_result_sequential`**: a placed update owns its log entry, and an applied or done
  update holds the result its entry has in the sequential execution of the log.
* **`read_linearizable`**: a done read returns the query on a log prefix between the bound it
  recorded and the version upper bound, and that bound exceeds the index of every update done
  when it was recorded.
-/

namespace NodeReplication.UnboundedLog

variable {S U R T : Type} [NRState S U R T] {s : State S U R T}

/-- The log holds every entry below the global tail. -/
theorem Inv.logContainsEntriesUpToHere (h : Inv s) {k : ℕ} (hk : k ≤ s.globalTail) :
    LogContainsEntriesUpToHere s.log k := fun i hi => by
  obtain ⟨e, he⟩ := h.log_some i (by omega)
  simp [he]

/-- A node's replica is the replay of the log up to its current local version. -/
theorem Inv.replica_eq (h : Inv s) {n : ℕ} {c : CombinerState} (hc : s.combiner n = some c) :
    s.replicas n = some (replayLog S s.log (s.currentLocalVersion n)) ∧
      s.currentLocalVersion n ≤ s.globalTail := by
  obtain ⟨lv, hlv, hle, hrep, hwf⟩ := h.node n c hc
  rw [State.currentLocalVersion_eq hc hlv]
  exact ⟨hrep, h.version_le hle hwf⟩

/-- **Replicas are replays of the log.** The replica of every node with a combiner is
`NRState.init` updated by the log entries below the node's current local version, all of which
are in the log; so replicas at the same version hold the same state. -/
theorem replica_eq_replayLog (h : Reachable S s) {n : ℕ} {c : CombinerState}
    (hc : s.combiner n = some c) :
    s.replicas n = some (replayLog S s.log (s.currentLocalVersion n)) ∧
      s.currentLocalVersion n ≤ s.globalTail ∧
      LogContainsEntriesUpToHere s.log (s.currentLocalVersion n) ∧
      ∀ m c', s.combiner m = some c' → s.currentLocalVersion m = s.currentLocalVersion n →
        s.replicas m = s.replicas n := by
  have hinv := h.inv
  obtain ⟨hrep, hle⟩ := hinv.replica_eq hc
  refine ⟨hrep, hle, hinv.logContainsEntriesUpToHere hle, fun m c' hc' hv => ?_⟩
  rw [(hinv.replica_eq hc').1, hrep, hv]

/-- A counter whose node `0` placed, applied and published one update, and whose node `1` then
replayed that entry by a remote dispatch: the two replicas agree at version `1`. -/
theorem replica_eq_replayLog_counter :
    ∃ s : State ℕ Unit Unit ℕ, Reachable ℕ s ∧ s.combiner 0 = some .ready ∧
      s.combiner 1 = some .ready ∧ s.currentLocalVersion 0 = 1 ∧ s.currentLocalVersion 1 = 1 ∧
      s.replicas 1 = some 1 ∧
      s.replicas 1 = some (replayLog ℕ s.log (s.currentLocalVersion 1)) ∧
      s.currentLocalVersion 1 ≤ s.globalTail ∧
      LogContainsEntriesUpToHere s.log (s.currentLocalVersion 1) ∧
      ∀ m c', s.combiner m = some c' → s.currentLocalVersion m = s.currentLocalVersion 1 →
        s.replicas m = s.replicas 1 := by
  have hr := (Reachable.init 2).run (show run (init 2 : State ℕ Unit Unit ℕ)
    [.updateStart () 0, .execTrivialStart 0, .updatePlaceOpsInLogOne 0 0,
      .execLoadLocalVersion 0, .execLoadGlobalHead 0, .execDispatchLocal 0,
      .execUpdateVersionUpperBound 0, .execFinish 0, .execTrivialStart 1,
      .execLoadLocalVersion 1, .execLoadGlobalHead 1, .execDispatchRemote 1,
      .execUpdateVersionUpperBound 1, .execFinish 1] = some _ from rfl)
  exact ⟨_, hr, rfl, rfl, rfl, rfl, rfl, replica_eq_replayLog hr rfl⟩

/-- **Updates return their sequential result.** A placed update's index is below the global
tail and its entry holds its operation; an applied or done update's index is below the global
tail and its result is the one its entry returns after the entries before it. -/
theorem update_result_sequential (h : Reachable S s) (rid : ℕ) :
    (∀ op idx, s.localUpdates rid = some (.placed op idx) →
      idx < s.globalTail ∧ ∃ e, s.log idx = some e ∧ e.op = op) ∧
    ∀ ret idx, (s.localUpdates rid = some (.applied ret idx) ∨
        s.localUpdates rid = some (.done ret idx)) →
      idx < s.globalTail ∧ ∃ e, s.log idx = some e ∧
        ret = (NRState.update (replayLog S s.log idx) e.op).2 := by
  have hinv := h.inv
  refine ⟨fun op idx hu => ?_, fun ret idx hu => ?_⟩
  · obtain ⟨n, hn⟩ := hinv.update rid _ hu
    exact ⟨hinv.lt_globalTail hn, _, hn, rfl⟩
  · have hret : ReturnAt S s.log ret idx := by
      rcases hu with hu | hu
      · exact hinv.update rid _ hu
      · exact (hinv.update rid _ hu).2
    obtain ⟨e, he, rfl⟩ := hret
    exact ⟨hinv.lt_globalTail he, e, he, rfl⟩

/-- Nodes `0` and `1` of a counter each place one request; node `1` replays node `0`'s entry by
a remote dispatch and its own locally, so its request `1` is done with result `1`, the count
after node `0`'s update. -/
theorem update_result_sequential_counter :
    ∃ s : State ℕ Unit Unit ℕ, Reachable ℕ s ∧ s.log 0 = some ⟨(), 0⟩ ∧
      s.localUpdates 1 = some (.done 1 1) ∧
      (∀ op idx, s.localUpdates 1 = some (.placed op idx) →
        idx < s.globalTail ∧ ∃ e, s.log idx = some e ∧ e.op = op) ∧
      ∀ ret idx, (s.localUpdates 1 = some (.applied ret idx) ∨
          s.localUpdates 1 = some (.done ret idx)) →
        idx < s.globalTail ∧ ∃ e, s.log idx = some e ∧
          ret = (NRState.update (replayLog ℕ s.log idx) e.op).2 := by
  have hr := (Reachable.init 2).run (show run (init 2 : State ℕ Unit Unit ℕ)
    [.updateStart () 0, .updateStart () 1, .execTrivialStart 0, .execTrivialStart 1,
      .updatePlaceOpsInLogOne 0 0, .updatePlaceOpsInLogOne 1 1, .execLoadLocalVersion 1,
      .execLoadGlobalHead 1, .execDispatchRemote 1, .execDispatchLocal 1,
      .execUpdateVersionUpperBound 1, .updateDone 1] = some _ from rfl)
  exact ⟨_, hr, rfl, rfl, update_result_sequential hr 1⟩

/-- **Reads are linearizable.** A done read returns its query on the replay of an exact log
prefix of length `k` with `v ≤ k ≤ versionUpperBound`; and `readonly_read_ctail` records a
bound above the index of every update done at that moment. -/
theorem read_linearizable (h : Reachable S s) :
    (∀ rid op ret n v, s.localReads rid = some (.done op ret n v) →
      ∃ k, v ≤ k ∧ k ≤ s.versionUpperBound ∧ LogContainsEntriesUpToHere s.log k ∧
        ret = NRState.read (replayLog S s.log k) op) ∧
    ∀ rid s', readonlyReadCtail s rid = some s' →
      ∃ op v, s'.localReads rid = some (.versionUpperBound op v) ∧
        ∀ rid' ret idx, s.localUpdates rid' = some (.done ret idx) → idx < v := by
  have hinv := h.inv
  refine ⟨fun rid op ret n v hr => ?_, fun rid s' hs => ?_⟩
  · obtain ⟨k, hvk, hk, hret⟩ := hinv.read rid _ hr
    exact ⟨k, hvk, hk, hinv.logContainsEntriesUpToHere (hk.trans hinv.versionUpperBound_le), hret⟩
  · obtain ⟨op, -, rfl⟩ := readonlyReadCtail_eq_some hs
    exact ⟨op, s.versionUpperBound, Function.update_same _ _ _,
      fun rid' _ _ hu => (hinv.update rid' _ hu).1⟩

/-- A counter after one update on node `0`: node `1` replays it by a remote dispatch, and its
read request `1` is then done with result `1`. -/
theorem read_linearizable_counter :
    ∃ s : State ℕ Unit Unit ℕ, Reachable ℕ s ∧ s.localReads 1 = some (.done () 1 1 1) ∧
      (∀ rid op ret n v, s.localReads rid = some (.done op ret n v) →
        ∃ k, v ≤ k ∧ k ≤ s.versionUpperBound ∧ LogContainsEntriesUpToHere s.log k ∧
          ret = NRState.read (replayLog ℕ s.log k) op) ∧
      ∀ rid s', readonlyReadCtail s rid = some s' →
        ∃ op v, s'.localReads rid = some (.versionUpperBound op v) ∧
          ∀ rid' ret idx, s.localUpdates rid' = some (.done ret idx) → idx < v := by
  have hr := (Reachable.init 2).run (show run (init 2 : State ℕ Unit Unit ℕ)
    [.updateStart () 0, .execTrivialStart 0, .updatePlaceOpsInLogOne 0 0,
      .execLoadLocalVersion 0, .execLoadGlobalHead 0, .execDispatchLocal 0,
      .execUpdateVersionUpperBound 0, .execFinish 0, .readonlyStart () 1,
      .readonlyReadCtail 1, .execTrivialStart 1, .execLoadLocalVersion 1,
      .execLoadGlobalHead 1, .execDispatchRemote 1, .execUpdateVersionUpperBound 1,
      .execFinish 1, .readonlyReadyToRead 1 1, .readonlyApply 1] = some _ from rfl)
  exact ⟨_, hr, rfl, read_linearizable hr⟩

end NodeReplication.UnboundedLog
