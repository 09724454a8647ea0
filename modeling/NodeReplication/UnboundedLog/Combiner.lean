import NodeReplication.UnboundedLog.Invariant

/-!
# The combiner's batch

A combiner places requests in the log one at a time, pushing each on its batch `queuedOps`,
then replays the log from its local version and dispatches the entries it placed, in order, to
the requests of its batch.

* **`loop_dispatch_matches_log`**: the entry a local dispatch replays belongs to the request at
  the dispatch position, and the replay ends exactly when the whole batch is dispatched.
* `CombinerState.dispatched`, **`batch_pending_owned`**: a batch has no duplicates, and its
  requests not yet dispatched are placed, own an entry of the node, and are in no other node's
  undispatched part.
* `retired_while_batched`: a dispatched request can be done and retired while its combiner still
  holds it, since `update_done` and `update_finish` do not look at the combiners.
-/

namespace NodeReplication.UnboundedLog

variable {S U R T : Type} [NRState S U R T] {s : State S U R T}

/-- **Local dispatch takes the owner.** In a replay loop at version `lversion`, an entry of the
node itself belongs to the request at position `idx` of the batch, which is placed at that
entry; at the end of the replay every request of the batch is dispatched. -/
theorem loop_dispatch_matches_log (h : Reachable S s) {n : ℕ} {q : List ℕ}
    {lversion idx globalTail : ℕ} (hc : s.combiner n = some (.loop q lversion idx globalTail)) :
    (∀ e, lversion < globalTail → s.log lversion = some e → e.nodeId = n →
      idx < q.length ∧ ∃ rid, q[idx]? = some rid ∧
        s.localUpdates rid = some (.placed e.op lversion)) ∧
    (lversion = globalTail → idx = q.length) := by
  have hinv := h.inv
  obtain ⟨lv, -, -, -, -, -, -, hq, -, -⟩ := hinv.node n _ hc
  refine ⟨fun e hlt he hn => ?_, fun heq => ?_⟩
  · obtain ⟨rid, op, hrid, hu, -⟩ := hq.local hlt he hn
    obtain ⟨n', hn'⟩ := hinv.update rid _ hu
    obtain rfl : e = ⟨op, n'⟩ := Option.some.inj (he.symm.trans hn')
    exact ⟨(List.getElem?_eq_some_iff.mp hrid).1, rid, hrid, hu⟩
  · subst heq
    exact logRangeMatchesQueue_self.mp hq

/-- Nodes `0` and `1` of a counter each place one request, and node `1` replays node `0`'s entry
`0` by a remote dispatch: its own entry `1` then belongs to request `1`, the head of its batch. -/
theorem loop_dispatch_matches_log_counter :
    ∃ s : State ℕ Unit Unit ℕ, Reachable ℕ s ∧ s.combiner 1 = some (.loop [1] 1 0 2) ∧
      s.log 0 = some ⟨(), 0⟩ ∧
      (∀ e, 1 < 2 → s.log 1 = some e → e.nodeId = 1 →
        0 < [1].length ∧ ∃ rid, [1][0]? = some rid ∧ s.localUpdates rid = some (.placed e.op 1)) ∧
      (1 = 2 → 0 = [1].length) := by
  have hr := (Reachable.init 2).run (show run (init 2 : State ℕ Unit Unit ℕ)
    [.updateStart () 0, .updateStart () 1, .execTrivialStart 0, .execTrivialStart 1,
      .updatePlaceOpsInLogOne 0 0, .updatePlaceOpsInLogOne 1 1, .execLoadLocalVersion 1,
      .execLoadGlobalHead 1, .execDispatchRemote 1] = some _ from rfl)
  exact ⟨_, hr, rfl, rfl, loop_dispatch_matches_log hr rfl⟩

/-- The position of a combiner's batch from which its requests are not yet dispatched. -/
def CombinerState.dispatched : CombinerState → ℕ
  | .ready | .placed _ | .loadedLocalVersion _ _ => 0
  | .loop _ _ idx _ => idx
  | .updatedVersion q _ => q.length

theorem Inv.queuedOps_nodup (h : Inv s) {n : ℕ} {c : CombinerState}
    (hc : s.combiner n = some c) : c.queuedOps.Nodup := by
  obtain ⟨lv, -, -, -, hwf⟩ := h.node n c hc
  cases c with
  | ready => exact List.nodup_nil
  | placed q => exact hwf.2
  | loadedLocalVersion q lversion => exact hwf.2.2
  | loop q lversion idx gt => exact hwf.2.2.2.2.2
  | updatedVersion q gt => exact hwf.2.2.2

/-- The undispatched part of a batch lies in a matched log range. -/
theorem Inv.exists_logRangeMatchesQueue (h : Inv s) {n : ℕ} {c : CombinerState}
    (hc : s.combiner n = some c) (hlt : c.dispatched < c.queuedOps.length) :
    ∃ lo hi, lo ≤ hi ∧
      LogRangeMatchesQueue c.queuedOps s.log c.dispatched lo hi n s.localUpdates := by
  obtain ⟨lv, -, hle, -, hwf⟩ := h.node n c hc
  have hvub := h.versionUpperBound_le
  cases c with
  | ready => exact absurd hlt (Nat.not_lt_zero _)
  | placed q => exact ⟨lv, s.globalTail, by omega, hwf.1⟩
  | loadedLocalVersion q lversion =>
    obtain ⟨rfl, hm, -⟩ := hwf
    exact ⟨lversion, s.globalTail, by omega, hm⟩
  | loop q lversion idx gt => exact ⟨lversion, gt, hwf.2.2.1, hwf.2.2.2.1⟩
  | updatedVersion q gt => exact absurd hlt (lt_irrefl _)

/-- An undispatched request of a batch is placed, at an entry of the batch's node. -/
theorem Inv.pending_placed (h : Inv s) {n : ℕ} {c : CombinerState} (hc : s.combiner n = some c)
    {j rid : ℕ} (hj : c.dispatched ≤ j) (hq : c.queuedOps[j]? = some rid) :
    ∃ op i, s.localUpdates rid = some (.placed op i) ∧ s.log i = some ⟨op, n⟩ := by
  have hlt : c.dispatched < c.queuedOps.length :=
    Nat.lt_of_le_of_lt hj (List.getElem?_eq_some_iff.mp hq).1
  obtain ⟨lo, hi, hle, hm⟩ := h.exists_logRangeMatchesQueue hc hlt
  obtain ⟨op, i, hu, -, -, e, he, rfl⟩ := hm.placed_of_getElem? hle hj hq
  obtain ⟨n', hn'⟩ := h.update rid _ hu
  obtain rfl : e = ⟨op, n'⟩ := Option.some.inj (he.symm.trans hn')
  exact ⟨op, i, hu, he⟩

/-- **The undispatched part of a batch.** A batch has no duplicates; each request at or after
`dispatched` is placed at an entry of the node; and such a request is undispatched in no other
node's batch. -/
theorem batch_pending_owned (h : Reachable S s) {n : ℕ} {c : CombinerState}
    (hc : s.combiner n = some c) :
    c.queuedOps.Nodup ∧
      (∀ j rid, c.dispatched ≤ j → c.queuedOps[j]? = some rid →
        ∃ op i, s.localUpdates rid = some (.placed op i) ∧ s.log i = some ⟨op, n⟩) ∧
      ∀ m c' j j' rid, s.combiner m = some c' → c.dispatched ≤ j → c'.dispatched ≤ j' →
        c.queuedOps[j]? = some rid → c'.queuedOps[j']? = some rid → m = n := by
  have hinv := h.inv
  refine ⟨hinv.queuedOps_nodup hc, fun j rid hj hq => hinv.pending_placed hc hj hq,
    fun m c' j j' rid hc' hj hj' hq hq' => ?_⟩
  obtain ⟨op, i, hu, hi⟩ := hinv.pending_placed hc hj hq
  obtain ⟨op', i', hu', hi'⟩ := hinv.pending_placed hc' hj' hq'
  obtain ⟨rfl, rfl⟩ : op = op' ∧ i = i' := by simpa [hu] using hu'
  simpa [hi'] using hi

/-- Nodes `0` and `1` of a counter each place one request; node `0`'s batch holds request `0`. -/
theorem batch_pending_owned_two_nodes :
    ∃ (s : State ℕ Unit Unit ℕ) (c : CombinerState), Reachable ℕ s ∧ s.combiner 0 = some c ∧
      c.queuedOps = [0] ∧ (s.combiner 1).isSome ∧
      c.queuedOps.Nodup ∧
      (∀ j rid, c.dispatched ≤ j → c.queuedOps[j]? = some rid →
        ∃ op i, s.localUpdates rid = some (.placed op i) ∧ s.log i = some ⟨op, 0⟩) ∧
      ∀ m c' j j' rid, s.combiner m = some c' → c.dispatched ≤ j → c'.dispatched ≤ j' →
        c.queuedOps[j]? = some rid → c'.queuedOps[j']? = some rid → m = 0 := by
  have hr := (Reachable.init 2).run (show run (init 2 : State ℕ Unit Unit ℕ)
    [.updateStart () 0, .updateStart () 1, .execTrivialStart 0, .execTrivialStart 1,
      .updatePlaceOpsInLogOne 0 0, .updatePlaceOpsInLogOne 1 1] = some _ from rfl)
  exact ⟨_, _, hr, rfl, rfl, rfl, batch_pending_owned hr rfl⟩

/-- One node places request `0`, dispatches it and raises the version upper bound; the request
is then done and retired while the combiner still holds it in its batch. -/
theorem retired_while_batched :
    ∃ s : State ℕ Unit Unit ℕ, Reachable ℕ s ∧
      s.combiner 0 = some (.updatedVersion [0] 1) ∧ s.localUpdates 0 = none :=
  ⟨_, (Reachable.init 1).run (show run (init 1) [.updateStart () 0, .execTrivialStart 0,
    .updatePlaceOpsInLogOne 0 0, .execLoadLocalVersion 0, .execLoadGlobalHead 0,
    .execDispatchLocal 0, .execUpdateVersionUpperBound 0, .updateDone 0, .updateFinish 0] =
    some _ from rfl), rfl, rfl⟩

end NodeReplication.UnboundedLog
