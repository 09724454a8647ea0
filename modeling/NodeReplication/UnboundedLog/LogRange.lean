import NodeReplication.UnboundedLog.Defs
import Mathlib.Data.List.Basic

/-!
# Log ranges and combiner queues

The predicates that tie a combiner's batch to the log. `LogRangeNoNodeId log lo hi n` says that
no entry of `[lo, hi)` was placed by node `n`; `LogRangeMatchesQueue q log qi lo hi n u` says
that `q` from position `qi` on lists, in order, the requests that own the entries of node `n` in
`[lo, hi)`, each still `placed` at its index. Both recurse on `hi - lo`, as in the source, and so
do the lemmas about them.

* congruence in the log and in the update map (`congr_log`, `congr_updates`);
* extension by one entry at `hi` (`LogRangeNoNodeId.snoc`, `snoc_remote`, `snoc_local`);
* what a match says of every queued request (`placed_of_getElem?`);
* `nodeIndices`, `QueuePlacedAt`, **`logRangeMatchesQueue_iff_queuePlacedAt`**: a match says
  exactly that the log holds the range and that the queue lists, in order, one placed request
  for each of the node's entries of the range.
-/

namespace NodeReplication.UnboundedLog

variable {U T : Type}

/-- The log holds every index below `end'` (`LogContainsEntriesUpToHere`). -/
def LogContainsEntriesUpToHere (log : ℕ → Option (LogEntry U)) (end' : ℕ) : Prop :=
  ∀ i, i < end' → (log i).isSome

/-- The log holds no index from `start` on (`LogNoEntriesFromHere`). -/
def LogNoEntriesFromHere (log : ℕ → Option (LogEntry U)) (start : ℕ) : Prop :=
  ∀ i, start ≤ i → log i = none

/-- No entry of `[start, end')` was placed by `nodeId` (`LogRangeNoNodeId`). -/
def LogRangeNoNodeId (log : ℕ → Option (LogEntry U)) (start end' : ℕ)
    (nodeId : ℕ) : Prop :=
  if h : start < end' then
    ∃ logEntry, log start = some logEntry ∧ logEntry.nodeId ≠ nodeId ∧
      LogRangeNoNodeId log (start + 1) end' nodeId
  else True
termination_by end' - start

/-- `queue` from `queueIndex` on lists the requests owning `nodeId`'s entries of
`[logIndexLower, logIndexUpper)`, each `placed` at its entry (`LogRangeMatchesQueue`). The
source's first conjunct, for `logIndexLower = logIndexUpper`, is the `else` branch. -/
def LogRangeMatchesQueue (queue : List ℕ) (log : ℕ → Option (LogEntry U))
    (queueIndex : ℕ) (logIndexLower logIndexUpper : ℕ) (nodeId : ℕ)
    (updates : ℕ → Option (UpdateState U T)) : Prop :=
  if h : logIndexLower < logIndexUpper then
    ∃ logEntry, log logIndexLower = some logEntry ∧
      (logEntry.nodeId = nodeId → ∃ rid op, queue[queueIndex]? = some rid ∧
        updates rid = some (.placed op logIndexLower) ∧
        LogRangeMatchesQueue queue log (queueIndex + 1) (logIndexLower + 1) logIndexUpper nodeId
          updates) ∧
      (logEntry.nodeId ≠ nodeId →
        LogRangeMatchesQueue queue log queueIndex (logIndexLower + 1) logIndexUpper nodeId updates)
  else logIndexLower = logIndexUpper → queueIndex = queue.length
termination_by logIndexUpper - logIndexLower

/-- The requests of `queuedOps` before `bound` are applied or done, if still present
(`QueueRidsUpdateDone`). -/
def QueueRidsUpdateDone (queuedOps : List ℕ) (localUpdates : ℕ → Option (UpdateState U T))
    (bound : ℕ) : Prop :=
  ∀ j rid, j < bound → queuedOps[j]? = some rid → ∀ st, localUpdates rid = some st →
    (∃ ret idx, st = .applied ret idx) ∨ ∃ ret idx, st = .done ret idx

/-- The requests of `queuedOps` from `bound` on are present and placed (`QueueRidsUpdatePlaced`). -/
def QueueRidsUpdatePlaced (queuedOps : List ℕ) (localUpdates : ℕ → Option (UpdateState U T))
    (bound : ℕ) : Prop :=
  ∀ j rid, bound ≤ j → queuedOps[j]? = some rid → ∃ op idx, localUpdates rid = some (.placed op idx)

/-! ## Ranges without entries of a node -/

section NoNodeId

variable {log log' : ℕ → Option (LogEntry U)} {nodeId : ℕ}

theorem logRangeNoNodeId_of_le {start end' : ℕ} (h : end' ≤ start) :
    LogRangeNoNodeId log start end' nodeId := by
  rw [LogRangeNoNodeId, dif_neg (by omega)]; trivial

theorem logRangeNoNodeId_of_lt {start end' : ℕ} (h : start < end') :
    LogRangeNoNodeId log start end' nodeId ↔ ∃ logEntry, log start = some logEntry ∧
      logEntry.nodeId ≠ nodeId ∧ LogRangeNoNodeId log (start + 1) end' nodeId := by
  rw [LogRangeNoNodeId, dif_pos h]

theorem LogRangeNoNodeId.congr_log {start end' : ℕ}
    (h : LogRangeNoNodeId log start end' nodeId)
    (hlog : ∀ i, start ≤ i → i < end' → log' i = log i) :
    LogRangeNoNodeId log' start end' nodeId := by
  by_cases hlt : start < end'
  · obtain ⟨e, he, hn, hrec⟩ := (logRangeNoNodeId_of_lt hlt).mp h
    exact (logRangeNoNodeId_of_lt hlt).mpr ⟨e, (hlog start le_rfl hlt).trans he, hn,
      hrec.congr_log fun i h1 h2 => hlog i (by omega) h2⟩
  · exact logRangeNoNodeId_of_le (by omega)
termination_by end' - start

/-- A range without entries of `nodeId`, followed by an entry of another node. -/
theorem LogRangeNoNodeId.snoc {start end' : ℕ} {e : LogEntry U}
    (h : LogRangeNoNodeId log start end' nodeId) (hle : start ≤ end') (he : log end' = some e)
    (hn : e.nodeId ≠ nodeId) : LogRangeNoNodeId log start (end' + 1) nodeId := by
  rw [logRangeNoNodeId_of_lt (by omega)]
  by_cases hlt : start < end'
  · obtain ⟨e', he', hn', hrec⟩ := (logRangeNoNodeId_of_lt hlt).mp h
    exact ⟨e', he', hn', hrec.snoc hlt he hn⟩
  · obtain rfl : start = end' := by omega
    exact ⟨e, he, hn, logRangeNoNodeId_of_le le_rfl⟩
termination_by end' - start

end NoNodeId

/-! ## Queues matching a log range -/

section MatchesQueue

variable {queue : List ℕ} {log log' : ℕ → Option (LogEntry U)} {nodeId : ℕ}
  {updates updates' : ℕ → Option (UpdateState U T)}

theorem logRangeMatchesQueue_of_lt {queueIndex : ℕ} {lo hi : ℕ} (h : lo < hi) :
    LogRangeMatchesQueue queue log queueIndex lo hi nodeId updates ↔
      ∃ logEntry, log lo = some logEntry ∧
        (logEntry.nodeId = nodeId → ∃ rid op, queue[queueIndex]? = some rid ∧
          updates rid = some (.placed op lo) ∧
          LogRangeMatchesQueue queue log (queueIndex + 1) (lo + 1) hi nodeId updates) ∧
        (logEntry.nodeId ≠ nodeId →
          LogRangeMatchesQueue queue log queueIndex (lo + 1) hi nodeId updates) := by
  rw [LogRangeMatchesQueue, dif_pos h]

/-- At the end of the range the whole queue is matched. -/
theorem logRangeMatchesQueue_self {queueIndex : ℕ} {lo : ℕ} :
    LogRangeMatchesQueue queue log queueIndex lo lo nodeId updates ↔
      queueIndex = queue.length := by
  rw [LogRangeMatchesQueue, dif_neg (lt_irrefl lo)]
  exact ⟨fun h => h rfl, fun h _ => h⟩

/-- The entry at the start of the range is `nodeId`'s: the queue's next request owns it. -/
theorem LogRangeMatchesQueue.local {queueIndex : ℕ} {lo hi : ℕ} {e : LogEntry U}
    (h : LogRangeMatchesQueue queue log queueIndex lo hi nodeId updates) (hlt : lo < hi)
    (he : log lo = some e) (hn : e.nodeId = nodeId) :
    ∃ rid op, queue[queueIndex]? = some rid ∧ updates rid = some (.placed op lo) ∧
      LogRangeMatchesQueue queue log (queueIndex + 1) (lo + 1) hi nodeId updates := by
  obtain ⟨e', he', hl, -⟩ := (logRangeMatchesQueue_of_lt hlt).mp h
  cases he.symm.trans he'
  exact hl hn

/-- The entry at the start of the range is another node's: the match goes on with it skipped. -/
theorem LogRangeMatchesQueue.remote {queueIndex : ℕ} {lo hi : ℕ} {e : LogEntry U}
    (h : LogRangeMatchesQueue queue log queueIndex lo hi nodeId updates) (hlt : lo < hi)
    (he : log lo = some e) (hn : e.nodeId ≠ nodeId) :
    LogRangeMatchesQueue queue log queueIndex (lo + 1) hi nodeId updates := by
  obtain ⟨e', he', -, hr⟩ := (logRangeMatchesQueue_of_lt hlt).mp h
  cases he.symm.trans he'
  exact hr hn

/-- Only the requests placed at `nodeId`'s entries of the range matter. -/
theorem LogRangeMatchesQueue.congr_updates {queueIndex : ℕ} {lo hi : ℕ}
    (h : LogRangeMatchesQueue queue log queueIndex lo hi nodeId updates)
    (hu : ∀ rid op i, updates rid = some (.placed op i) → lo ≤ i → i < hi →
      (∃ e, log i = some e ∧ e.nodeId = nodeId) → updates' rid = updates rid) :
    LogRangeMatchesQueue queue log queueIndex lo hi nodeId updates' := by
  by_cases hlt : lo < hi
  · obtain ⟨e, he, hl, hr⟩ := (logRangeMatchesQueue_of_lt hlt).mp h
    have hu' : ∀ rid op i, updates rid = some (.placed op i) → lo + 1 ≤ i → i < hi →
        (∃ e, log i = some e ∧ e.nodeId = nodeId) → updates' rid = updates rid :=
      fun rid op i hr h1 => hu rid op i hr (by omega)
    refine (logRangeMatchesQueue_of_lt hlt).mpr ⟨e, he, fun hn => ?_, fun hn =>
      (hr hn).congr_updates hu'⟩
    obtain ⟨rid, op, hq, hrid, hrec⟩ := hl hn
    exact ⟨rid, op, hq, (hu rid op lo hrid le_rfl hlt ⟨e, he, hn⟩).trans hrid,
      hrec.congr_updates hu'⟩
  · rw [LogRangeMatchesQueue, dif_neg hlt] at h ⊢
    exact h
termination_by hi - lo

/-- Only the entries of the range matter. -/
theorem LogRangeMatchesQueue.congr_log {queueIndex : ℕ} {lo hi : ℕ}
    (h : LogRangeMatchesQueue queue log queueIndex lo hi nodeId updates)
    (hlog : ∀ i, lo ≤ i → i < hi → log' i = log i) :
    LogRangeMatchesQueue queue log' queueIndex lo hi nodeId updates := by
  by_cases hlt : lo < hi
  · obtain ⟨e, he, hl, hr⟩ := (logRangeMatchesQueue_of_lt hlt).mp h
    have hlog' : ∀ i, lo + 1 ≤ i → i < hi → log' i = log i := fun i h1 => hlog i (by omega)
    refine (logRangeMatchesQueue_of_lt hlt).mpr ⟨e, (hlog lo le_rfl hlt).trans he,
      fun hn => ?_, fun hn => (hr hn).congr_log hlog'⟩
    obtain ⟨rid, op, hq, hrid, hrec⟩ := hl hn
    exact ⟨rid, op, hq, hrid, hrec.congr_log hlog'⟩
  · rw [LogRangeMatchesQueue, dif_neg hlt] at h ⊢
    exact h
termination_by hi - lo

/-- An entry of another node at the end of the range changes nothing in the queue. -/
theorem LogRangeMatchesQueue.snoc_remote {queueIndex : ℕ} {lo hi : ℕ} {e : LogEntry U}
    (h : LogRangeMatchesQueue queue log queueIndex lo hi nodeId updates) (hle : lo ≤ hi)
    (he : log hi = some e) (hn : e.nodeId ≠ nodeId) :
    LogRangeMatchesQueue queue log queueIndex lo (hi + 1) nodeId updates := by
  rw [logRangeMatchesQueue_of_lt (by omega)]
  by_cases hlt : lo < hi
  · obtain ⟨e', he', hl, hr⟩ := (logRangeMatchesQueue_of_lt hlt).mp h
    refine ⟨e', he', fun hn' => ?_, fun hn' => (hr hn').snoc_remote hlt he hn⟩
    obtain ⟨rid, op, hq, hrid, hrec⟩ := hl hn'
    exact ⟨rid, op, hq, hrid, hrec.snoc_remote hlt he hn⟩
  · obtain rfl : lo = hi := by omega
    exact ⟨e, he, fun hn' => absurd hn' hn, fun _ =>
      logRangeMatchesQueue_self.mpr (logRangeMatchesQueue_self.mp h)⟩
termination_by hi - lo

/-- An entry of `nodeId` at the end of the range is owned by a request pushed on the queue. -/
theorem LogRangeMatchesQueue.snoc_local {queueIndex : ℕ} {lo hi : ℕ} {e : LogEntry U}
    {rid : ℕ} {op : U}
    (h : LogRangeMatchesQueue queue log queueIndex lo hi nodeId updates) (hle : lo ≤ hi)
    (he : log hi = some e) (hn : e.nodeId = nodeId) (hrid : updates rid = some (.placed op hi)) :
    LogRangeMatchesQueue (queue ++ [rid]) log queueIndex lo (hi + 1) nodeId updates := by
  rw [logRangeMatchesQueue_of_lt (by omega)]
  by_cases hlt : lo < hi
  · obtain ⟨e', he', hl, hr⟩ := (logRangeMatchesQueue_of_lt hlt).mp h
    refine ⟨e', he', fun hn' => ?_, fun hn' => (hr hn').snoc_local hlt he hn hrid⟩
    obtain ⟨rid', op', hq, hrid', hrec⟩ := hl hn'
    have hlen : queueIndex < queue.length := (List.getElem?_eq_some_iff.mp hq).1
    exact ⟨rid', op', by rw [List.getElem?_append_left hlen, hq], hrid',
      hrec.snoc_local hlt he hn hrid⟩
  · obtain rfl : lo = hi := by omega
    have hq := logRangeMatchesQueue_self.mp h
    refine ⟨e, he, fun _ => ⟨rid, op, ?_, hrid, logRangeMatchesQueue_self.mpr ?_⟩,
      fun hn' => absurd hn hn'⟩
    · simp [hq]
    · simp [hq]
termination_by hi - lo

/-- With no entry of `nodeId` in the range, a fully matched queue matches it. -/
theorem LogRangeNoNodeId.logRangeMatchesQueue {queueIndex : ℕ} {lo hi : ℕ}
    (h : LogRangeNoNodeId log lo hi nodeId) (hq : queueIndex = queue.length) :
    LogRangeMatchesQueue queue log queueIndex lo hi nodeId updates := by
  by_cases hlt : lo < hi
  · obtain ⟨e, he, hn, hrec⟩ := (logRangeNoNodeId_of_lt hlt).mp h
    exact (logRangeMatchesQueue_of_lt hlt).mpr ⟨e, he, fun hn' => absurd hn' hn,
      fun _ => hrec.logRangeMatchesQueue hq⟩
  · rw [LogRangeMatchesQueue, dif_neg hlt]
    exact fun _ => hq
termination_by hi - lo

/-- Every request of the queue from `queueIndex` on is placed at an entry of `nodeId` in the
range. -/
theorem LogRangeMatchesQueue.placed_of_getElem? {queueIndex : ℕ} {lo hi : ℕ}
    (h : LogRangeMatchesQueue queue log queueIndex lo hi nodeId updates) (hle : lo ≤ hi)
    {j : ℕ} {rid : ℕ} (hj : queueIndex ≤ j) (hq : queue[j]? = some rid) :
    ∃ op i, updates rid = some (.placed op i) ∧ lo ≤ i ∧ i < hi ∧
      ∃ e, log i = some e ∧ e.nodeId = nodeId := by
  by_cases hlt : lo < hi
  · obtain ⟨e, he, hl, hr⟩ := (logRangeMatchesQueue_of_lt hlt).mp h
    by_cases hn : e.nodeId = nodeId
    · obtain ⟨rid', op, hq', hrid, hrec⟩ := hl hn
      rcases Nat.eq_or_lt_of_le hj with rfl | hj'
      · cases hq.symm.trans hq'
        exact ⟨op, lo, hrid, le_rfl, hlt, e, he, hn⟩
      · obtain ⟨op', i, hi', h1, h2, hlog⟩ := hrec.placed_of_getElem? hlt hj' hq
        exact ⟨op', i, hi', by omega, h2, hlog⟩
    · obtain ⟨op', i, hi', h1, h2, hlog⟩ := (hr hn).placed_of_getElem? hlt hj hq
      exact ⟨op', i, hi', by omega, h2, hlog⟩
  · obtain rfl : lo = hi := by omega
    have := logRangeMatchesQueue_self.mp h
    have := (List.getElem?_eq_some_iff.mp hq).1
    omega
termination_by hi - lo

end MatchesQueue

/-! ## What a match says -/

section Characterisation

variable {updates : ℕ → Option (UpdateState U T)} {nodeId : ℕ}

/-- The indices of `[lo, hi)` whose log entry was placed by `nodeId`, in increasing order. -/
def nodeIndices (log : ℕ → Option (LogEntry U)) (lo hi nodeId : ℕ) : List ℕ :=
  (List.range' lo (hi - lo)).filter fun k => decide ((log k).map LogEntry.nodeId = some nodeId)

theorem nodeIndices_self (log : ℕ → Option (LogEntry U)) (lo : ℕ) :
    nodeIndices log lo lo nodeId = [] := by
  simp [nodeIndices]

theorem nodeIndices_of_lt {log : ℕ → Option (LogEntry U)} {lo hi : ℕ} (h : lo < hi) :
    nodeIndices log lo hi nodeId =
      if (log lo).map LogEntry.nodeId = some nodeId then lo :: nodeIndices log (lo + 1) hi nodeId
      else nodeIndices log (lo + 1) hi nodeId := by
  rw [nodeIndices, show hi - lo = hi - (lo + 1) + 1 by omega, List.range'_succ, List.filter_cons]
  simp only [decide_eq_true_eq]
  rfl

/-- `queue` from `queueIndex` on holds one request per index of `idxs` and nothing more, the
`j`-th placed at `idxs[j]`. -/
def QueuePlacedAt (queue : List ℕ) (queueIndex : ℕ) (idxs : List ℕ)
    (updates : ℕ → Option (UpdateState U T)) : Prop :=
  queue.length = queueIndex + idxs.length ∧
    ∀ j idx, idxs[j]? = some idx →
      ∃ rid op, queue[queueIndex + j]? = some rid ∧ updates rid = some (.placed op idx)

theorem queuePlacedAt_nil {queue : List ℕ} {queueIndex : ℕ} :
    QueuePlacedAt queue queueIndex [] updates ↔ queueIndex = queue.length := by
  simp [QueuePlacedAt, eq_comm]

theorem queuePlacedAt_cons {queue : List ℕ} {queueIndex idx : ℕ} {idxs : List ℕ} :
    QueuePlacedAt queue queueIndex (idx :: idxs) updates ↔
      (∃ rid op, queue[queueIndex]? = some rid ∧ updates rid = some (.placed op idx)) ∧
        QueuePlacedAt queue (queueIndex + 1) idxs updates := by
  have hj : ∀ j, queueIndex + 1 + j = queueIndex + (j + 1) := fun j => by omega
  constructor
  · rintro ⟨hlen, h⟩
    refine ⟨h 0 idx List.getElem?_cons_zero, by simp only [List.length_cons] at hlen; omega, fun j x hx => ?_⟩
    rw [hj]
    exact h (j + 1) x (by simpa using hx)
  · rintro ⟨h0, hlen, h⟩
    refine ⟨by simp only [List.length_cons]; omega, fun j x hx => ?_⟩
    cases j with
    | zero =>
      obtain rfl : idx = x := by simpa using hx
      exact h0
    | succ j => rw [← hj]; exact h j x (by simpa using hx)

/-- **What `LogRangeMatchesQueue` says.** For `lo ≤ hi`, the queue matches the log range
exactly when the log holds every index of the range and the queue from `queueIndex` on lists,
in order, one placed request for each of `nodeId`'s entries of the range, and nothing more. -/
theorem logRangeMatchesQueue_iff_queuePlacedAt (queue : List ℕ) (log : ℕ → Option (LogEntry U))
    (queueIndex lo hi nodeId : ℕ) (updates : ℕ → Option (UpdateState U T)) (hle : lo ≤ hi) :
    LogRangeMatchesQueue queue log queueIndex lo hi nodeId updates ↔
      (∀ k, lo ≤ k → k < hi → (log k).isSome) ∧
        QueuePlacedAt queue queueIndex (nodeIndices log lo hi nodeId) updates := by
  rcases Nat.eq_or_lt_of_le hle with rfl | hlt
  · rw [logRangeMatchesQueue_self, nodeIndices_self, queuePlacedAt_nil]
    exact ⟨fun h => ⟨fun k h1 h2 => absurd h2 (by omega), h⟩, fun h => h.2⟩
  have ih := fun i =>
    logRangeMatchesQueue_iff_queuePlacedAt queue log i (lo + 1) hi nodeId updates hlt
  have hdom : (∀ k, lo ≤ k → k < hi → (log k).isSome) ↔
      (log lo).isSome ∧ ∀ k, lo + 1 ≤ k → k < hi → (log k).isSome :=
    ⟨fun h => ⟨h lo le_rfl hlt, fun k h1 => h k (by omega)⟩, fun ⟨h0, h⟩ k h1 h2 =>
      (Nat.eq_or_lt_of_le h1).elim (fun he => he ▸ h0) fun h1 => h k h1 h2⟩
  rw [logRangeMatchesQueue_of_lt hlt, nodeIndices_of_lt hlt, hdom]
  cases he : log lo with
  | none => simp
  | some e =>
    by_cases hn : e.nodeId = nodeId
    · -- the entry is the node's own: the queue's next request owns it
      rw [if_pos (by simp [hn]), queuePlacedAt_cons]
      constructor
      · rintro ⟨_, ⟨⟩, hl, -⟩
        obtain ⟨rid, op, hq, hu, hrec⟩ := hl hn
        obtain ⟨hdom, hqp⟩ := (ih _).mp hrec
        exact ⟨⟨rfl, hdom⟩, ⟨rid, op, hq, hu⟩, hqp⟩
      · rintro ⟨⟨-, hdom⟩, ⟨rid, op, hq, hu⟩, hqp⟩
        exact ⟨e, rfl, fun _ => ⟨rid, op, hq, hu, (ih _).mpr ⟨hdom, hqp⟩⟩, fun h => absurd hn h⟩
    · -- another node's entry: the queue is matched against the rest of the range
      rw [if_neg (by simp [hn])]
      constructor
      · rintro ⟨_, ⟨⟩, -, hr⟩
        obtain ⟨hdom, hqp⟩ := (ih _).mp (hr hn)
        exact ⟨⟨rfl, hdom⟩, hqp⟩
      · rintro ⟨⟨-, hdom⟩, hqp⟩
        exact ⟨e, rfl, fun h => absurd h hn, fun _ => (ih _).mpr ⟨hdom, hqp⟩⟩
termination_by hi - lo

/-- A one-entry log of node `0` whose entry request `7` owns. -/
theorem logRangeMatchesQueue_iff_queuePlacedAt_single :
    ∃ (log : ℕ → Option (LogEntry Unit)) (updates : ℕ → Option (UpdateState Unit ℕ)),
      log 0 = some ⟨(), 0⟩ ∧ updates 7 = some (.placed () 0) ∧ 0 ≤ 1 ∧
      (LogRangeMatchesQueue [7] log 0 0 1 0 updates ↔
        (∀ k, 0 ≤ k → k < 1 → (log k).isSome) ∧
          QueuePlacedAt [7] 0 (nodeIndices log 0 1 0) updates) :=
  ⟨fun _ => some ⟨(), 0⟩, fun _ => some (.placed () 0), rfl, rfl, Nat.zero_le 1,
    logRangeMatchesQueue_iff_queuePlacedAt _ _ 0 0 1 0 _ (Nat.zero_le 1)⟩

end Characterisation

end NodeReplication.UnboundedLog
