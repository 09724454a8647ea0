import NodeReplication.UnboundedLog.Defs

/-!
# What each transition of the unbounded log does

One inversion lemma per transition: from `t s … = some s'`, the guards the transition checked
and the state `s'` it built. Invariant proofs use these and never unfold a transition.

The converse lemmas (`execFinish_eq` and the like), for the transitions that a combiner round
and a request take, say that the transition is enabled when its guards hold and build that
state; progress proofs use them.
-/

namespace NodeReplication.UnboundedLog

variable {S U R T : Type} {s s' : State S U R T}

section ReadUpdate

theorem readonlyStart_eq_some {op : R} {rid : ℕ} (h : readonlyStart s op rid = some s') :
    s.localReads rid = none ∧
      s' = { s with localReads := Function.update s.localReads rid (some (.init op)) } := by
  unfold readonlyStart at h
  split at h
  · exact ⟨Option.isNone_iff_eq_none.mp ‹_›, (Option.some.inj h).symm⟩
  · cases h

theorem readonlyReadCtail_eq_some {rid : ℕ} (h : readonlyReadCtail s rid = some s') :
    ∃ op, s.localReads rid = some (.init op) ∧ s' = { s with
      localReads := Function.update s.localReads rid
        (some (.versionUpperBound op s.versionUpperBound)) } := by
  unfold readonlyReadCtail at h
  split at h
  · exact ⟨_, ‹_›, (Option.some.inj h).symm⟩
  · cases h

theorem readonlyReadyToRead_eq_some {rid nodeId : ℕ} (h : readonlyReadyToRead s rid nodeId = some s') :
    ∃ op v lv, s.localReads rid = some (.versionUpperBound op v) ∧
      s.localVersions nodeId = some lv ∧ v ≤ lv ∧ s' = { s with
        localReads := Function.update s.localReads rid (some (.readyToRead op nodeId v)) } := by
  unfold readonlyReadyToRead at h
  split at h
  · split at h
    · exact ⟨_, _, _, ‹_›, ‹_›, ‹_›, (Option.some.inj h).symm⟩
    · cases h
  · cases h

theorem readonlyApply_eq_some [NRState S U R T] {rid : ℕ} (h : readonlyApply s rid = some s') :
    ∃ op nodeId v st, s.localReads rid = some (.readyToRead op nodeId v) ∧
      s.combiner nodeId = some .ready ∧ s.replicas nodeId = some st ∧ s' = { s with
        localReads := Function.update s.localReads rid
          (some (.done op (NRState.read st op) nodeId v)) } := by
  unfold readonlyApply at h
  split at h
  · split at h
    · exact ⟨_, _, _, _, ‹_›, ‹_›, ‹_›, (Option.some.inj h).symm⟩
    · cases h
  · cases h

theorem readonlyFinish_eq_some {rid : ℕ} (h : readonlyFinish s rid = some s') :
    (∃ op ret nodeId v, s.localReads rid = some (.done op ret nodeId v)) ∧
      s' = { s with localReads := Function.update s.localReads rid none } := by
  unfold readonlyFinish at h
  split at h
  · exact ⟨⟨_, _, _, _, ‹_›⟩, (Option.some.inj h).symm⟩
  · cases h

theorem updateStart_eq_some {op : U} {rid : ℕ} (h : updateStart s op rid = some s') :
    s.localUpdates rid = none ∧
      s' = { s with localUpdates := Function.update s.localUpdates rid (some (.init op)) } := by
  unfold updateStart at h
  split at h
  · exact ⟨Option.isNone_iff_eq_none.mp ‹_›, (Option.some.inj h).symm⟩
  · cases h

theorem updatePlaceOpsInLogOne_eq_some {nodeId rid : ℕ}
    (h : updatePlaceOpsInLogOne s nodeId rid = some s') :
    ∃ queuedOps op, s.combiner nodeId = some (.placed queuedOps) ∧
      s.localUpdates rid = some (.init op) ∧ s' = { s with
        globalTail := s.globalTail + 1
        log := Function.update s.log s.globalTail (some ⟨op, nodeId⟩)
        localUpdates := Function.update s.localUpdates rid (some (.placed op s.globalTail))
        combiner := Function.update s.combiner nodeId (some (.placed (queuedOps ++ [rid]))) } := by
  unfold updatePlaceOpsInLogOne at h
  split at h
  · exact ⟨_, _, ‹_›, ‹_›, (Option.some.inj h).symm⟩
  · cases h

theorem updateDone_eq_some {rid : ℕ} (h : updateDone s rid = some s') :
    ∃ ret idx, s.localUpdates rid = some (.applied ret idx) ∧ idx < s.versionUpperBound ∧
      s' = { s with localUpdates := Function.update s.localUpdates rid (some (.done ret idx)) } := by
  unfold updateDone at h
  split at h
  · split at h
    · exact ⟨_, _, ‹_›, ‹_›, (Option.some.inj h).symm⟩
    · cases h
  · cases h

theorem updateFinish_eq_some {rid : ℕ} (h : updateFinish s rid = some s') :
    (∃ ret idx, s.localUpdates rid = some (.done ret idx)) ∧
      s' = { s with localUpdates := Function.update s.localUpdates rid none } := by
  unfold updateFinish at h
  split at h
  · exact ⟨⟨_, _, ‹_›⟩, (Option.some.inj h).symm⟩
  · cases h

end ReadUpdate

section Combiner

variable {nodeId : ℕ}

theorem execTrivialStart_eq_some (h : execTrivialStart s nodeId = some s') :
    s.combiner nodeId = some .ready ∧
      s' = { s with combiner := Function.update s.combiner nodeId (some (.placed [])) } := by
  unfold execTrivialStart at h
  split at h
  · exact ⟨‹_›, (Option.some.inj h).symm⟩
  · cases h

theorem execLoadLocalVersion_eq_some (h : execLoadLocalVersion s nodeId = some s') :
    ∃ queuedOps lversion, s.combiner nodeId = some (.placed queuedOps) ∧
      s.localVersions nodeId = some lversion ∧ s' = { s with
        combiner := Function.update s.combiner nodeId
          (some (.loadedLocalVersion queuedOps lversion)) } := by
  unfold execLoadLocalVersion at h
  split at h
  · exact ⟨_, _, ‹_›, ‹_›, (Option.some.inj h).symm⟩
  · cases h

theorem execLoadGlobalHead_eq_some (h : execLoadGlobalHead s nodeId = some s') :
    ∃ queuedOps lversion, s.combiner nodeId = some (.loadedLocalVersion queuedOps lversion) ∧
      s' = { s with
        combiner := Function.update s.combiner nodeId
          (some (.loop queuedOps lversion 0 s.globalTail)) } := by
  unfold execLoadGlobalHead at h
  split at h
  · exact ⟨_, _, ‹_›, (Option.some.inj h).symm⟩
  · cases h

theorem execUpdateVersionUpperBound_eq_some (h : execUpdateVersionUpperBound s nodeId = some s') :
    ∃ queuedOps idx globalTail,
      s.combiner nodeId = some (.loop queuedOps globalTail idx globalTail) ∧ s' = { s with
        versionUpperBound :=
          if s.versionUpperBound ≥ globalTail then s.versionUpperBound else globalTail
        combiner := Function.update s.combiner nodeId
          (some (.updatedVersion queuedOps globalTail)) } := by
  unfold execUpdateVersionUpperBound at h
  split at h
  · split at h
    · subst_vars
      exact ⟨_, _, _, ‹_›, (Option.some.inj h).symm⟩
    · cases h
  · cases h

theorem execFinish_eq_some (h : execFinish s nodeId = some s') :
    ∃ queuedOps globalTail lv, s.combiner nodeId = some (.updatedVersion queuedOps globalTail) ∧
      s.localVersions nodeId = some lv ∧ s' = { s with
        localVersions := Function.update s.localVersions nodeId (some globalTail)
        combiner := Function.update s.combiner nodeId (some .ready) } := by
  unfold execFinish at h
  split at h
  · exact ⟨_, _, _, ‹_›, ‹_›, (Option.some.inj h).symm⟩
  · cases h

variable [NRState S U R T]

theorem execDispatchLocal_eq_some (h : execDispatchLocal s nodeId = some s') :
    ∃ queuedOps lversion idx globalTail oldNrState u logEntry,
      s.combiner nodeId = some (.loop queuedOps lversion idx globalTail) ∧
      s.replicas nodeId = some oldNrState ∧ s.localUpdates (queuedOps.getD idx 0) = some u ∧
      s.log lversion = some logEntry ∧ lversion < globalTail ∧ logEntry.nodeId = nodeId ∧
      s' = { s with
        localUpdates := Function.update s.localUpdates (queuedOps.getD idx 0)
          (some (.applied (NRState.update oldNrState logEntry.op).2 lversion))
        replicas := Function.update s.replicas nodeId
          (some (NRState.update oldNrState logEntry.op).1)
        combiner := Function.update s.combiner nodeId
          (some (.loop queuedOps (lversion + 1) (idx + 1) globalTail)) } := by
  unfold execDispatchLocal at h
  dsimp only at h
  split at h
  · split at h
    · split at h
      · obtain ⟨h1, h2⟩ := ‹_ ∧ _›
        exact ⟨_, _, _, _, _, _, _, ‹_›, ‹_›, ‹_›, ‹_›, h1, h2, (Option.some.inj h).symm⟩
      · cases h
    · cases h
  · cases h

theorem execDispatchRemote_eq_some (h : execDispatchRemote s nodeId = some s') :
    ∃ queuedOps lversion idx globalTail oldNrState logEntry,
      s.combiner nodeId = some (.loop queuedOps lversion idx globalTail) ∧
      s.replicas nodeId = some oldNrState ∧ s.log lversion = some logEntry ∧
      lversion < globalTail ∧ logEntry.nodeId ≠ nodeId ∧ s' = { s with
        replicas := Function.update s.replicas nodeId
          (some (NRState.update oldNrState logEntry.op).1)
        combiner := Function.update s.combiner nodeId
          (some (.loop queuedOps (lversion + 1) idx globalTail)) } := by
  unfold execDispatchRemote at h
  split at h
  · split at h
    · split at h
      · obtain ⟨h1, h2⟩ := ‹_ ∧ _›
        exact ⟨_, _, _, _, _, _, ‹_›, ‹_›, ‹_›, h1, h2, (Option.some.inj h).symm⟩
      · cases h
    · cases h
  · cases h

end Combiner

/-! ## Enabled transitions -/

section Enabled

variable {nodeId rid : ℕ} {q : List ℕ}

theorem readonlyReadCtail_eq {op : R} (hr : s.localReads rid = some (.init op)) :
    readonlyReadCtail s rid = some { s with
      localReads := Function.update s.localReads rid
        (some (.versionUpperBound op s.versionUpperBound)) } := by
  simp only [readonlyReadCtail, hr]

theorem readonlyReadyToRead_eq {op : R} {v lv : ℕ}
    (hr : s.localReads rid = some (.versionUpperBound op v))
    (hlv : s.localVersions nodeId = some lv) (hle : v ≤ lv) :
    readonlyReadyToRead s rid nodeId = some { s with
      localReads := Function.update s.localReads rid (some (.readyToRead op nodeId v)) } := by
  simp only [readonlyReadyToRead, hr, hlv, if_pos hle]

theorem updatePlaceOpsInLogOne_eq {op : U} (hc : s.combiner nodeId = some (.placed q))
    (hu : s.localUpdates rid = some (.init op)) :
    updatePlaceOpsInLogOne s nodeId rid = some { s with
      globalTail := s.globalTail + 1
      log := Function.update s.log s.globalTail (some ⟨op, nodeId⟩)
      localUpdates := Function.update s.localUpdates rid (some (.placed op s.globalTail))
      combiner := Function.update s.combiner nodeId (some (.placed (q ++ [rid]))) } := by
  simp only [updatePlaceOpsInLogOne, hc, hu]

theorem updateDone_eq {ret : T} {idx : ℕ} (hu : s.localUpdates rid = some (.applied ret idx))
    (hlt : idx < s.versionUpperBound) :
    updateDone s rid = some { s with
      localUpdates := Function.update s.localUpdates rid (some (.done ret idx)) } := by
  simp only [updateDone, hu, if_pos hlt]

theorem execTrivialStart_eq (hc : s.combiner nodeId = some .ready) :
    execTrivialStart s nodeId =
      some { s with combiner := Function.update s.combiner nodeId (some (.placed [])) } := by
  simp only [execTrivialStart, hc]

theorem execLoadLocalVersion_eq {lversion : ℕ} (hc : s.combiner nodeId = some (.placed q))
    (hlv : s.localVersions nodeId = some lversion) :
    execLoadLocalVersion s nodeId = some { s with
      combiner := Function.update s.combiner nodeId (some (.loadedLocalVersion q lversion)) } := by
  simp only [execLoadLocalVersion, hc, hlv]

theorem execLoadGlobalHead_eq {lversion : ℕ}
    (hc : s.combiner nodeId = some (.loadedLocalVersion q lversion)) :
    execLoadGlobalHead s nodeId = some { s with
      combiner := Function.update s.combiner nodeId (some (.loop q lversion 0 s.globalTail)) } := by
  simp only [execLoadGlobalHead, hc]

theorem execUpdateVersionUpperBound_eq {idx gt : ℕ}
    (hc : s.combiner nodeId = some (.loop q gt idx gt)) :
    execUpdateVersionUpperBound s nodeId = some { s with
      versionUpperBound := if s.versionUpperBound ≥ gt then s.versionUpperBound else gt
      combiner := Function.update s.combiner nodeId (some (.updatedVersion q gt)) } := by
  simp only [execUpdateVersionUpperBound, hc, if_true]

theorem execFinish_eq {gt lv : ℕ} (hc : s.combiner nodeId = some (.updatedVersion q gt))
    (hlv : s.localVersions nodeId = some lv) :
    execFinish s nodeId = some { s with
      localVersions := Function.update s.localVersions nodeId (some gt)
      combiner := Function.update s.combiner nodeId (some .ready) } := by
  simp only [execFinish, hc, hlv]

variable [NRState S U R T]

theorem readonlyApply_eq {op : R} {v : ℕ} {st : S}
    (hr : s.localReads rid = some (.readyToRead op nodeId v))
    (hc : s.combiner nodeId = some .ready) (hrep : s.replicas nodeId = some st) :
    readonlyApply s rid = some { s with
      localReads := Function.update s.localReads rid
        (some (.done op (NRState.read st op) nodeId v)) } := by
  simp only [readonlyApply, hr, hc, hrep]

theorem execDispatchLocal_eq {lversion idx gt : ℕ} {old : S} {u : UpdateState U T}
    {e : LogEntry U} (hc : s.combiner nodeId = some (.loop q lversion idx gt))
    (hrep : s.replicas nodeId = some old) (hu : s.localUpdates (q.getD idx 0) = some u)
    (he : s.log lversion = some e) (hlt : lversion < gt) (hn : e.nodeId = nodeId) :
    execDispatchLocal s nodeId = some { s with
      localUpdates := Function.update s.localUpdates (q.getD idx 0)
        (some (.applied (NRState.update old e.op).2 lversion))
      replicas := Function.update s.replicas nodeId (some (NRState.update old e.op).1)
      combiner := Function.update s.combiner nodeId
        (some (.loop q (lversion + 1) (idx + 1) gt)) } := by
  simp only [execDispatchLocal, hc, hrep, hu, he, if_pos (And.intro hlt hn)]

theorem execDispatchRemote_eq {lversion idx gt : ℕ} {old : S} {e : LogEntry U}
    (hc : s.combiner nodeId = some (.loop q lversion idx gt))
    (hrep : s.replicas nodeId = some old) (he : s.log lversion = some e) (hlt : lversion < gt)
    (hn : e.nodeId ≠ nodeId) :
    execDispatchRemote s nodeId = some { s with
      replicas := Function.update s.replicas nodeId (some (NRState.update old e.op).1)
      combiner := Function.update s.combiner nodeId
        (some (.loop q (lversion + 1) idx gt)) } := by
  simp only [execDispatchRemote, hc, hrep, he, if_pos (And.intro hlt hn)]

end Enabled

end NodeReplication.UnboundedLog
