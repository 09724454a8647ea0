import NodeReplication.UnboundedLog.LogRange
import NodeReplication.UnboundedLog.Steps

/-!
# The invariant of the unbounded log

`Inv` holds in every reachable state (**`Reachable.inv`**). It relates each combiner to the log
(`CombinerWf`, the source's `wf_combiner_for_node_id` without `QueueRidsUpdateDone`), each
replica to the sequential execution of the log (`replayLog`), and each request to the log and
the version upper bound.

The source's `QueueRidsUpdateDone` is left out: an update can be done and retired while its
combiner still holds it, and `update_start` may then hand its id to a new request.

* `replayLog S log k`: the replica state after the first `k` log entries;
* `NodeInv`, `UpdateInv`, `ReadInv` and `Inv`;
* one preservation lemma per transition, and `Inv.next`.
-/

namespace NodeReplication.UnboundedLog

variable {S U R T : Type} [NRState S U R T]

variable (S) in
/-- The replica state after applying the updates of log entries `0, …, k - 1`, in order, to
`NRState.init`. -/
def replayLog (log : ℕ → Option (LogEntry U)) : ℕ → S
  | 0 => NRState.init
  | k + 1 =>
    match log k with
    | some e => (NRState.update (replayLog log k) e.op).1
    | none => replayLog log k

theorem replayLog_succ {log : ℕ → Option (LogEntry U)} {k : ℕ} {e : LogEntry U}
    (h : log k = some e) : replayLog S log (k + 1) = (NRState.update (replayLog S log k) e.op).1 := by
  rw [replayLog, h]

/-- The replayed state depends only on the entries below `k`. -/
theorem replayLog_congr {log log' : ℕ → Option (LogEntry U)} :
    ∀ {k : ℕ}, (∀ i, i < k → log' i = log i) → replayLog S log' k = replayLog S log k
  | 0, _ => rfl
  | k + 1, h => by
    simp only [replayLog, h k (Nat.lt_succ_self k),
      replayLog_congr fun i hi => h i (Nat.lt_succ_of_lt hi)]

variable (S) in
/-- `ret` is the result of the update at `idx` in the sequential execution of the log. -/
def ReturnAt (log : ℕ → Option (LogEntry U)) (ret : T) (idx : ℕ) : Prop :=
  ∃ e, log idx = some e ∧ ret = (NRState.update (replayLog S log idx) e.op).2

/-- The version a replica is at, from its combiner phase and its published local version `lv`:
the source's `current_local_version`. -/
def CombinerState.version (c : CombinerState) (lv : ℕ) : ℕ :=
  match c with
  | .ready | .placed _ => lv
  | .loadedLocalVersion _ lversion | .loop _ lversion _ _ => lversion
  | .updatedVersion _ globalTail => globalTail

omit [NRState S U R T] in
theorem State.currentLocalVersion_eq {s : State S U R T} {nodeId lv : ℕ} {c : CombinerState}
    (hc : s.combiner nodeId = some c) (hlv : s.localVersions nodeId = some lv) :
    s.currentLocalVersion nodeId = c.version lv := by
  cases c <;> simp [State.currentLocalVersion, CombinerState.version, hc, hlv]

/-- What the phase of node `nodeId`'s combiner guarantees about the log and the update requests,
given the node's published local version `lv` (`wf_combiner_for_node_id`). -/
def CombinerWf (s : State S U R T) (nodeId lv : ℕ) : CombinerState → Prop
  | .ready => LogRangeNoNodeId s.log lv s.globalTail nodeId
  | .placed queuedOps =>
    LogRangeMatchesQueue queuedOps s.log 0 lv s.globalTail nodeId s.localUpdates ∧ queuedOps.Nodup
  | .loadedLocalVersion queuedOps lversion =>
    lversion = lv ∧
      LogRangeMatchesQueue queuedOps s.log 0 lversion s.globalTail nodeId s.localUpdates ∧
      queuedOps.Nodup
  | .loop queuedOps lversion idx globalTail =>
    globalTail ≤ s.globalTail ∧ lv ≤ lversion ∧ lversion ≤ globalTail ∧
      LogRangeMatchesQueue queuedOps s.log idx lversion globalTail nodeId s.localUpdates ∧
      LogRangeNoNodeId s.log globalTail s.globalTail nodeId ∧ queuedOps.Nodup
  | .updatedVersion queuedOps globalTail =>
    globalTail ≤ s.versionUpperBound ∧ lv ≤ globalTail ∧
      LogRangeNoNodeId s.log globalTail s.globalTail nodeId ∧ queuedOps.Nodup

/-- A node with combiner phase `c` has a local version below the version upper bound, its
replica is the replay of the log up to its version, and its phase is well formed. -/
def NodeInv (s : State S U R T) (nodeId : ℕ) (c : CombinerState) : Prop :=
  ∃ lv, s.localVersions nodeId = some lv ∧ lv ≤ s.versionUpperBound ∧
    s.replicas nodeId = some (replayLog S s.log (c.version lv)) ∧ CombinerWf s nodeId lv c

/-- A placed update owns its log entry; an applied or done one holds the result of its entry in
the sequential execution, and a done one lies below the version upper bound. -/
def UpdateInv (s : State S U R T) : UpdateState U T → Prop
  | .init _ => True
  | .placed op idx => ∃ nodeId, s.log idx = some ⟨op, nodeId⟩
  | .applied ret idx => ReturnAt S s.log ret idx
  | .done ret idx => idx < s.versionUpperBound ∧ ReturnAt S s.log ret idx

/-- A read's recorded bound is below the version upper bound and the chosen node's local
version; a done read returns the query on a replay of the log between the two. -/
def ReadInv (s : State S U R T) : ReadonlyState R T → Prop
  | .init _ => True
  | .versionUpperBound _ v => v ≤ s.versionUpperBound
  | .readyToRead _ nodeId v =>
    v ≤ s.versionUpperBound ∧ ∃ lv, s.localVersions nodeId = some lv ∧ v ≤ lv
  | .done op ret _ v =>
    ∃ k, v ≤ k ∧ k ≤ s.versionUpperBound ∧ ret = NRState.read (replayLog S s.log k) op

/-- The invariant of the unbounded log. -/
structure Inv (s : State S U R T) : Prop where
  versionUpperBound_le : s.versionUpperBound ≤ s.globalTail
  log_some : ∀ i, i < s.globalTail → ∃ e, s.log i = some e
  log_none : ∀ i, s.globalTail ≤ i → s.log i = none
  node : ∀ nodeId c, s.combiner nodeId = some c → NodeInv s nodeId c
  update : ∀ rid u, s.localUpdates rid = some u → UpdateInv s u
  read : ∀ rid r, s.localReads rid = some r → ReadInv s r

theorem inv_init (numberOfNodes : ℕ) : Inv (init (S := S) numberOfNodes) where
  versionUpperBound_le := le_rfl
  log_some _ h := absurd h (Nat.not_lt_zero _)
  log_none _ _ := rfl
  node n c hc := by
    simp only [init] at hc
    split_ifs at hc with hn
    cases hc
    exact ⟨0, by simp [init, hn], le_rfl, by simp [init, hn, CombinerState.version, replayLog],
      logRangeNoNodeId_of_le le_rfl⟩
  update _ _ h := by cases h
  read _ _ h := by cases h

/-! ## Frames -/

section Frames

variable {s : State S U R T}

omit [NRState S U R T] in
/-- A property of every value of a map survives setting one key to a value that has it. -/
theorem forall_update_eq_some {β : Type} {f : ℕ → Option β} {P : β → Prop} {a : ℕ} {b : Option β}
    (hf : ∀ x y, f x = some y → P y) (hb : ∀ y, b = some y → P y) :
    ∀ x y, Function.update f a b x = some y → P y := by
  intro x y hxy
  by_cases hx : x = a
  · subst hx
    rw [Function.update_same] at hxy
    exact hb y hxy
  · rw [Function.update_noteq hx] at hxy
    exact hf x y hxy

theorem Inv.lt_globalTail (h : Inv s) {i : ℕ} {e : LogEntry U} (he : s.log i = some e) :
    i < s.globalTail :=
  Nat.lt_of_not_le fun hle => by simp [h.log_none i hle] at he

/-- The version of a well-formed node is at most the global tail. -/
theorem Inv.version_le (h : Inv s) {nodeId lv : ℕ} {c : CombinerState}
    (hlv : lv ≤ s.versionUpperBound) (hwf : CombinerWf s nodeId lv c) :
    c.version lv ≤ s.globalTail := by
  have := h.versionUpperBound_le
  cases c <;> simp only [CombinerWf, CombinerState.version] at hwf ⊢ <;> omega

omit [NRState S U R T] in
/-- Only the log, the tails and the placed requests of a node's own entries matter to its
combiner. -/
theorem CombinerWf.congr_updates {s' : State S U R T} {nodeId lv : ℕ} {c : CombinerState}
    (hwf : CombinerWf s nodeId lv c) (hlog : s'.log = s.log) (hgt : s'.globalTail = s.globalTail)
    (hvub : s'.versionUpperBound = s.versionUpperBound)
    (hu : ∀ rid op i, s.localUpdates rid = some (.placed op i) →
      (∃ e, s.log i = some e ∧ e.nodeId = nodeId) → s'.localUpdates rid = s.localUpdates rid) :
    CombinerWf s' nodeId lv c := by
  have hu' : ∀ lo hi rid op i, s.localUpdates rid = some (.placed op i) → lo ≤ i → i < hi →
      (∃ e, s.log i = some e ∧ e.nodeId = nodeId) → s'.localUpdates rid = s.localUpdates rid :=
    fun _ _ rid op i hr _ _ => hu rid op i hr
  cases c with
  | ready => simpa only [CombinerWf, hlog, hgt] using hwf
  | placed q =>
    simp only [CombinerWf, hlog, hgt] at hwf ⊢
    exact ⟨hwf.1.congr_updates (hu' _ _), hwf.2⟩
  | loadedLocalVersion q lversion =>
    simp only [CombinerWf, hlog, hgt] at hwf ⊢
    exact ⟨hwf.1, hwf.2.1.congr_updates (hu' _ _), hwf.2.2⟩
  | loop q lversion idx gt =>
    simp only [CombinerWf, hlog, hgt] at hwf ⊢
    obtain ⟨h1, h2, h3, h4, h5⟩ := hwf
    exact ⟨h1, h2, h3, h4.congr_updates (hu' _ _), h5⟩
  | updatedVersion q gt => simpa only [CombinerWf, hlog, hgt, hvub] using hwf

theorem Inv.setLocalReads (h : Inv s) {localReads : ℕ → Option (ReadonlyState R T)}
    (hr : ∀ rid r, localReads rid = some r → ReadInv s r) :
    Inv { s with localReads := localReads } :=
  { h with read := hr }

theorem Inv.setLocalUpdates (h : Inv s) {u : ℕ → Option (UpdateState U T)}
    (hplaced : ∀ rid op i, s.localUpdates rid = some (.placed op i) → u rid = s.localUpdates rid)
    (hu : ∀ rid x, u rid = some x → UpdateInv s x) :
    Inv { s with localUpdates := u } :=
  { h with
    node := fun n c hc => by
      obtain ⟨lv, h1, h2, h3, h4⟩ := h.node n c hc
      exact ⟨lv, h1, h2, h3, h4.congr_updates rfl rfl rfl fun rid op i hr _ => hplaced rid op i hr⟩
    update := hu }

theorem Inv.setCombiner (h : Inv s) {nodeId : ℕ} {c : CombinerState} (hc : NodeInv s nodeId c) :
    Inv { s with combiner := Function.update s.combiner nodeId (some c) } :=
  { h with
    node := fun n c' hc' => by
      simp only [Function.update_apply] at hc'
      split_ifs at hc' with hn
      · subst hn; cases hc'; exact hc
      · exact h.node n c' hc' }

/-- Raising the version upper bound, up to the global tail, keeps the invariant. -/
theorem Inv.raiseVersionUpperBound (h : Inv s) {v : ℕ} (hle : s.versionUpperBound ≤ v)
    (hv : v ≤ s.globalTail) : Inv { s with versionUpperBound := v } where
  versionUpperBound_le := hv
  log_some := h.log_some
  log_none := h.log_none
  node n c hc := by
    obtain ⟨lv, h1, h2, h3, h4⟩ := h.node n c hc
    refine ⟨lv, h1, h2.trans hle, h3, ?_⟩
    cases c with
    | updatedVersion q gt => exact ⟨h4.1.trans hle, h4.2⟩
    | _ => exact h4
  update rid x hx := by
    have := h.update rid x hx
    cases x with
    | done ret idx => exact ⟨Nat.lt_of_lt_of_le this.1 hle, this.2⟩
    | _ => exact this
  read rid r hr := by
    have := h.read rid r hr
    cases r with
    | versionUpperBound op w => exact this.trans hle
    | readyToRead op n w => exact ⟨this.1.trans hle, this.2⟩
    | done op ret n w =>
      obtain ⟨k, h1, h2, h3⟩ := this
      exact ⟨k, h1, h2.trans hle, h3⟩
    | init op => trivial

end Frames

/-! ## Read-only and request transitions -/

section Requests

variable {s s' : State S U R T}

theorem Inv.readonlyStart (h : Inv s) {op : R} {rid : ℕ} (hs : readonlyStart s op rid = some s') :
    Inv s' := by
  obtain ⟨-, rfl⟩ := readonlyStart_eq_some hs
  exact h.setLocalReads (forall_update_eq_some h.read fun _ hy => by cases hy; trivial)

theorem Inv.readonlyReadCtail (h : Inv s) {rid : ℕ} (hs : readonlyReadCtail s rid = some s') :
    Inv s' := by
  obtain ⟨op, -, rfl⟩ := readonlyReadCtail_eq_some hs
  exact h.setLocalReads (forall_update_eq_some h.read fun _ hy => by cases hy; exact le_rfl)

theorem Inv.readonlyReadyToRead (h : Inv s) {rid nodeId : ℕ}
    (hs : readonlyReadyToRead s rid nodeId = some s') : Inv s' := by
  obtain ⟨op, v, lv, hr, hlv, hv, rfl⟩ := readonlyReadyToRead_eq_some hs
  have hvub : v ≤ s.versionUpperBound := h.read rid _ hr
  exact h.setLocalReads (forall_update_eq_some h.read fun _ hy => by
    cases hy; exact ⟨hvub, lv, hlv, hv⟩)

/-- A read runs on a ready replica, which is the replay of the log up to its local version. -/
theorem Inv.readonlyApply (h : Inv s) {rid : ℕ} (hs : readonlyApply s rid = some s') : Inv s' := by
  obtain ⟨op, nodeId, v, st, hr, hc, hst, rfl⟩ := readonlyApply_eq_some hs
  obtain ⟨-, lv, hlv, hv⟩ : ReadInv s (.readyToRead op nodeId v) := h.read rid _ hr
  obtain ⟨lv', hlv', hle, hrep, -⟩ := h.node nodeId _ hc
  obtain rfl : lv' = lv := Option.some.inj (hlv'.symm.trans hlv)
  obtain rfl : st = replayLog S s.log lv' := Option.some.inj (hst.symm.trans hrep)
  exact h.setLocalReads (forall_update_eq_some h.read fun _ hy => by
    cases hy; exact ⟨lv', hv, hle, rfl⟩)

theorem Inv.readonlyFinish (h : Inv s) {rid : ℕ} (hs : readonlyFinish s rid = some s') :
    Inv s' := by
  obtain ⟨-, rfl⟩ := readonlyFinish_eq_some hs
  exact h.setLocalReads (forall_update_eq_some h.read fun _ hy => by cases hy)

omit [NRState S U R T] in
/-- Setting a request that is not placed leaves every placed request as it is. -/
theorem update_placed_of_not_placed {u : ℕ → Option (UpdateState U T)} {rid : ℕ}
    {x : Option (UpdateState U T)} (hrid : ∀ op i, u rid ≠ some (.placed op i)) :
    ∀ r op i, u r = some (.placed op i) → Function.update u rid x r = u r := by
  intro r op i hr
  have : r ≠ rid := by rintro rfl; exact hrid op i hr
  rw [Function.update_noteq this]

theorem Inv.updateStart (h : Inv s) {op : U} {rid : ℕ} (hs : updateStart s op rid = some s') :
    Inv s' := by
  obtain ⟨hfresh, rfl⟩ := updateStart_eq_some hs
  exact h.setLocalUpdates (update_placed_of_not_placed (by simp [hfresh]))
    (forall_update_eq_some h.update fun _ hy => by cases hy; trivial)

theorem Inv.updateDone (h : Inv s) {rid : ℕ} (hs : updateDone s rid = some s') : Inv s' := by
  obtain ⟨ret, idx, hu, hlt, rfl⟩ := updateDone_eq_some hs
  exact h.setLocalUpdates (update_placed_of_not_placed (by simp [hu]))
    (forall_update_eq_some h.update fun _ hy => by cases hy; exact ⟨hlt, h.update rid _ hu⟩)

theorem Inv.updateFinish (h : Inv s) {rid : ℕ} (hs : updateFinish s rid = some s') : Inv s' := by
  obtain ⟨⟨ret, idx, hu⟩, rfl⟩ := updateFinish_eq_some hs
  exact h.setLocalUpdates (update_placed_of_not_placed (by simp [hu]))
    (forall_update_eq_some h.update fun _ hy => by cases hy)

end Requests

/-! ## Combiner transitions -/

section Combiner

variable {s s' : State S U R T} {nodeId : ℕ}

theorem Inv.execTrivialStart (h : Inv s) (hs : execTrivialStart s nodeId = some s') : Inv s' := by
  obtain ⟨hc, rfl⟩ := execTrivialStart_eq_some hs
  obtain ⟨lv, hlv, hle, hrep, hwf⟩ := h.node nodeId _ hc
  exact h.setCombiner ⟨lv, hlv, hle, hrep, hwf.logRangeMatchesQueue rfl, List.nodup_nil⟩

theorem Inv.execLoadLocalVersion (h : Inv s) (hs : execLoadLocalVersion s nodeId = some s') :
    Inv s' := by
  obtain ⟨q, lversion, hc, hlv', rfl⟩ := execLoadLocalVersion_eq_some hs
  obtain ⟨lv, hlv, hle, hrep, hwf⟩ := h.node nodeId _ hc
  obtain rfl : lversion = lv := Option.some.inj (hlv'.symm.trans hlv)
  exact h.setCombiner ⟨lversion, hlv, hle, hrep, rfl, hwf⟩

theorem Inv.execLoadGlobalHead (h : Inv s) (hs : execLoadGlobalHead s nodeId = some s') :
    Inv s' := by
  obtain ⟨q, lversion, hc, rfl⟩ := execLoadGlobalHead_eq_some hs
  obtain ⟨lv, hlv, hle, hrep, rfl, hq, hnd⟩ := h.node nodeId _ hc
  exact h.setCombiner ⟨lversion, hlv, hle, hrep, le_rfl, le_rfl,
    hle.trans h.versionUpperBound_le, hq, logRangeNoNodeId_of_le le_rfl, hnd⟩

theorem Inv.execUpdateVersionUpperBound (h : Inv s)
    (hs : execUpdateVersionUpperBound s nodeId = some s') : Inv s' := by
  obtain ⟨q, idx, gt, hc, rfl⟩ := execUpdateVersionUpperBound_eq_some hs
  obtain ⟨lv, hlv, hle, hrep, hgt, hlv', -, -, hno, hnd⟩ := h.node nodeId _ hc
  have hvub := h.versionUpperBound_le
  have hmax : s.versionUpperBound ≤ (if s.versionUpperBound ≥ gt then s.versionUpperBound else gt) ∧
      gt ≤ (if s.versionUpperBound ≥ gt then s.versionUpperBound else gt) := by
    split_ifs <;> omega
  have hraise := h.raiseVersionUpperBound hmax.1 (by split_ifs <;> omega)
  exact hraise.setCombiner ⟨lv, hlv, hle.trans hmax.1, hrep, hmax.2, hlv', hno, hnd⟩

theorem Inv.execFinish (h : Inv s) (hs : execFinish s nodeId = some s') : Inv s' := by
  obtain ⟨q, gt, lv, hc, hlv, rfl⟩ := execFinish_eq_some hs
  obtain ⟨lv', hlv', -, hrep, hgt, hle, hno, -⟩ := h.node nodeId _ hc
  obtain rfl : lv' = lv := Option.some.inj (hlv'.symm.trans hlv)
  refine { h with node := fun n c hc' => ?_, read := fun rid r hr => ?_ }
  · simp only [Function.update_apply] at hc'
    split_ifs at hc' with hn
    · subst hn; cases hc'
      exact ⟨gt, Function.update_same _ _ _, hgt, hrep, hno⟩
    · obtain ⟨lv, h1, h2, h3, h4⟩ := h.node n c hc'
      exact ⟨lv, (Function.update_noteq hn _ _).trans h1, h2, h3, h4⟩
  · have := h.read rid r hr
    cases r with
    | readyToRead op n v =>
      obtain ⟨hv, lv'', hlv'', hv'⟩ := this
      refine ⟨hv, ?_⟩
      dsimp only
      by_cases hn : n = nodeId
      · subst hn
        obtain rfl : lv'' = lv' := Option.some.inj (hlv''.symm.trans hlv)
        exact ⟨gt, Function.update_same _ _ _, hv'.trans hle⟩
      · exact ⟨lv'', (Function.update_noteq hn _ _).trans hlv'', hv'⟩
    | _ => exact this

/-- Node `nodeId` gets a new replica and combiner phase. -/
theorem Inv.setNode (h : Inv s) {c : CombinerState} {st : S}
    (hc : ∃ lv, s.localVersions nodeId = some lv ∧ lv ≤ s.versionUpperBound ∧
      st = replayLog S s.log (c.version lv) ∧ CombinerWf s nodeId lv c) :
    Inv { s with
      replicas := Function.update s.replicas nodeId (some st)
      combiner := Function.update s.combiner nodeId (some c) } :=
  { h with
    node := fun n c' hc' => by
      simp only [Function.update_apply] at hc'
      split_ifs at hc' with hn
      · subst hn; cases hc'
        obtain ⟨lv, h1, h2, h3, h4⟩ := hc
        exact ⟨lv, h1, h2, (Function.update_same _ _ _).trans (congrArg some h3), h4⟩
      · obtain ⟨lv, h1, h2, h3, h4⟩ := h.node n c' hc'
        exact ⟨lv, h1, h2, (Function.update_noteq hn _ _).trans h3, h4⟩ }

/-- Replaying an entry of another node moves the replay cursor. -/
theorem Inv.execDispatchRemote (h : Inv s) (hs : execDispatchRemote s nodeId = some s') :
    Inv s' := by
  obtain ⟨q, lversion, idx, gt, old, e, hc, hold, he, hlt, hn, rfl⟩ :=
    execDispatchRemote_eq_some hs
  obtain ⟨lv, hlv, hle, hrep, hgt, hlv', -, hq, hno, hnd⟩ := h.node nodeId _ hc
  obtain rfl : old = replayLog S s.log lversion := Option.some.inj (hold.symm.trans hrep)
  exact h.setNode ⟨lv, hlv, hle, (replayLog_succ he).symm, hgt, by omega, hlt,
    hq.remote hlt he hn, hno, hnd⟩

/-- Replaying an entry of this node applies the request the queue index points at, which is the
request placed at that entry. -/
theorem Inv.execDispatchLocal (h : Inv s) (hs : execDispatchLocal s nodeId = some s') :
    Inv s' := by
  obtain ⟨q, lversion, idx, gt, old, x, e, hc, hold, hx, he, hlt, hn, rfl⟩ :=
    execDispatchLocal_eq_some hs
  obtain ⟨lv, hlv, hle, hrep, hgt, hlv', -, hq, hno, hnd⟩ := h.node nodeId _ hc
  obtain rfl : old = replayLog S s.log lversion := Option.some.inj (hold.symm.trans hrep)
  obtain ⟨rid, op, hrid, hplaced, hrec⟩ := hq.local hlt he hn
  obtain rfl : q.getD idx 0 = rid := by simp [List.getD_eq_getElem?_getD, hrid]
  refine { h with node := fun n c hc' => ?_, update := ?_ }
  · simp only [Function.update_apply] at hc'
    split_ifs at hc' with hnm
    · subst hnm; cases hc'
      refine ⟨lv, hlv, hle, (Function.update_same _ _ _).trans
        (congrArg some (replayLog_succ he).symm), hgt, by omega, hlt,
        hrec.congr_updates fun r op' i hr hi _ _ => Function.update_noteq ?_ _ _, hno, hnd⟩
      rintro rfl
      cases hplaced.symm.trans hr
      omega
    · obtain ⟨lv₁, h1, h2, h3, h4⟩ := h.node n c hc'
      refine ⟨lv₁, h1, h2, (Function.update_noteq hnm _ _).trans h3,
        h4.congr_updates rfl rfl rfl fun r op' i hr ⟨e', he', hn'⟩ => Function.update_noteq ?_ _ _⟩
      rintro rfl
      cases hplaced.symm.trans hr
      cases he.symm.trans he'
      exact hnm (hn'.symm.trans hn)
  · exact forall_update_eq_some h.update fun _ hy => by cases hy; exact ⟨e, he, rfl⟩

end Combiner

/-! ## Placing an update -/

section Place

variable {s s' : State S U R T} {nodeId : ℕ}

omit [NRState S U R T] in
/-- An entry placed at the global tail by another node keeps a combiner well formed. -/
theorem CombinerWf.place_other {n lv : ℕ} {c : CombinerState} {e : LogEntry U}
    (hwf : CombinerWf s n lv c) (hlv : lv ≤ s.globalTail) (hvgt : s.versionUpperBound ≤ s.globalTail)
    (hgt : s'.globalTail = s.globalTail + 1) (hvub : s'.versionUpperBound = s.versionUpperBound)
    (hlog : ∀ i, i < s.globalTail → s'.log i = s.log i) (he : s'.log s.globalTail = some e)
    (hn : e.nodeId ≠ n)
    (hu : ∀ rid op i, s.localUpdates rid = some (.placed op i) →
      s'.localUpdates rid = s.localUpdates rid) :
    CombinerWf s' n lv c := by
  have hlog' : ∀ lo hi, hi ≤ s.globalTail → ∀ i, lo ≤ i → i < hi → s'.log i = s.log i :=
    fun _ _ hhi i _ hi => hlog i (by omega)
  have hu' : ∀ lo hi rid op i, s.localUpdates rid = some (.placed op i) → lo ≤ i → i < hi →
      (∃ e, s.log i = some e ∧ e.nodeId = n) → s'.localUpdates rid = s.localUpdates rid :=
    fun _ _ rid op i hr _ _ _ => hu rid op i hr
  cases c with
  | ready =>
    simp only [CombinerWf, hgt] at hwf ⊢
    exact (hwf.congr_log (hlog' _ _ le_rfl)).snoc hlv he hn
  | placed q =>
    simp only [CombinerWf, hgt] at hwf ⊢
    exact ⟨((hwf.1.congr_updates (hu' _ _)).congr_log (hlog' _ _ le_rfl)).snoc_remote hlv he hn,
      hwf.2⟩
  | loadedLocalVersion q lversion =>
    simp only [CombinerWf, hgt] at hwf ⊢
    obtain ⟨rfl, h2, h3⟩ := hwf
    exact ⟨rfl, ((h2.congr_updates (hu' _ _)).congr_log (hlog' _ _ le_rfl)).snoc_remote hlv he hn,
      h3⟩
  | loop q lversion idx gt =>
    simp only [CombinerWf, hgt] at hwf ⊢
    obtain ⟨h1, h2, h3, h4, h5, h6⟩ := hwf
    exact ⟨by omega, h2, h3, (h4.congr_updates (hu' _ _)).congr_log (hlog' _ _ h1),
      (h5.congr_log (hlog' _ _ le_rfl)).snoc h1 he hn, h6⟩
  | updatedVersion q gt =>
    simp only [CombinerWf, hgt, hvub] at hwf ⊢
    obtain ⟨h1, h2, h3, h4⟩ := hwf
    exact ⟨h1, h2, (h3.congr_log (hlog' _ _ le_rfl)).snoc (by omega) he hn, h4⟩

/-- Placing an update at the global tail: the log grows by one entry, owned by the request that
the placing combiner pushes on its queue. -/
theorem Inv.updatePlaceOpsInLogOne (h : Inv s) {rid : ℕ}
    (hs : updatePlaceOpsInLogOne s nodeId rid = some s') : Inv s' := by
  obtain ⟨q, op, hc, hu, rfl⟩ := updatePlaceOpsInLogOne_eq_some hs
  have hvgt := h.versionUpperBound_le
  have hlog : ∀ i, i < s.globalTail →
      Function.update s.log s.globalTail (some ⟨op, nodeId⟩) i = s.log i :=
    fun i hi => Function.update_noteq (Nat.ne_of_lt hi) _ _
  have hreplay : ∀ k, k ≤ s.globalTail →
      replayLog S (Function.update s.log s.globalTail (some ⟨op, nodeId⟩)) k = replayLog S s.log k :=
    fun k hk => replayLog_congr fun i hi => hlog i (by omega)
  have hplaced : ∀ r op' i, s.localUpdates r = some (.placed op' i) →
      Function.update s.localUpdates rid (some (.placed op s.globalTail)) r = s.localUpdates r :=
    update_placed_of_not_placed (by simp [hu])
  refine ⟨by dsimp only; omega, fun i hi => ?_, fun i hi => ?_, fun n c hc' => ?_,
    forall_update_eq_some (fun r x hx => ?_) fun _ hy => ?_, fun r x hx => ?_⟩
  · dsimp only at hi ⊢
    rcases Nat.lt_succ_iff_lt_or_eq.mp hi with hi | rfl
    · rw [hlog i hi]; exact h.log_some i hi
    · exact ⟨_, Function.update_same _ _ _⟩
  · dsimp only at hi ⊢
    rw [Function.update_noteq (by omega)]
    exact h.log_none i (by omega)
  · simp only [Function.update_apply] at hc'
    split_ifs at hc' with hnm
    · subst hnm; cases hc'
      obtain ⟨lv, hlv, hle, hrep, hq, hnd⟩ := h.node n _ hc
      refine ⟨lv, hlv, hle, hrep.trans (congrArg some (hreplay lv (by omega)).symm), ?_, ?_⟩
      · exact ((hq.congr_updates fun r op' i hr _ _ _ => hplaced r op' i hr).congr_log
          fun i _ hi => hlog i hi).snoc_local (by omega) (Function.update_same _ _ _) rfl
          (Function.update_same _ _ _)
      · refine List.pairwise_append.mpr ⟨hnd, List.pairwise_singleton _ rid, ?_⟩
        intro r hr r' hr' hrr
        obtain rfl := List.mem_singleton.mp hr'
        obtain ⟨j, hj, rfl⟩ := List.getElem_of_mem hr
        obtain ⟨op', i, hi, -⟩ := hq.placed_of_getElem? (by omega) (Nat.zero_le j)
          (List.getElem?_eq_getElem hj)
        rw [hrr] at hi
        simp [hu] at hi
    · obtain ⟨lv, h1, h2, h3, h4⟩ := h.node n c hc'
      exact ⟨lv, h1, h2, h3.trans (congrArg some (hreplay _ (h.version_le h2 h4)).symm),
        h4.place_other (by omega) hvgt rfl rfl hlog (Function.update_same _ _ _) (Ne.symm hnm)
          hplaced⟩
  · have := h.update r x hx
    cases x with
    | init op' => trivial
    | placed op' i =>
      obtain ⟨n', hn'⟩ := this
      exact ⟨n', (hlog i (h.lt_globalTail hn')).trans hn'⟩
    | applied ret i =>
      obtain ⟨e, he, rfl⟩ := this
      have hi := h.lt_globalTail he
      exact ⟨e, (hlog i hi).trans he, by rw [hreplay i hi.le]⟩
    | done ret i =>
      obtain ⟨hlt, e, he, rfl⟩ := this
      have hi := h.lt_globalTail he
      exact ⟨hlt, e, (hlog i hi).trans he, by rw [hreplay i hi.le]⟩
  · cases hy
    exact ⟨nodeId, Function.update_same _ _ _⟩
  · have := h.read r x hx
    cases x with
    | done op' ret n v =>
      obtain ⟨k, h1, h2, rfl⟩ := this
      exact ⟨k, h1, h2, by rw [hreplay k (by omega)]⟩
    | _ => exact this

end Place

/-! ## Every reachable state -/

section Reachable

variable {s s' : State S U R T}

/-- Every transition keeps the invariant. -/
theorem Inv.next (h : Inv s) : ∀ {st : Step U R}, next s st = some s' → Inv s'
  | .readonlyStart _ _, hs => h.readonlyStart hs
  | .readonlyReadCtail _, hs => h.readonlyReadCtail hs
  | .readonlyReadyToRead _ _, hs => h.readonlyReadyToRead hs
  | .readonlyApply _, hs => h.readonlyApply hs
  | .readonlyFinish _, hs => h.readonlyFinish hs
  | .updateStart _ _, hs => h.updateStart hs
  | .updatePlaceOpsInLogOne _ _, hs => h.updatePlaceOpsInLogOne hs
  | .updateDone _, hs => h.updateDone hs
  | .updateFinish _, hs => h.updateFinish hs
  | .execTrivialStart _, hs => h.execTrivialStart hs
  | .execLoadLocalVersion _, hs => h.execLoadLocalVersion hs
  | .execLoadGlobalHead _, hs => h.execLoadGlobalHead hs
  | .execDispatchLocal _, hs => h.execDispatchLocal hs
  | .execDispatchRemote _, hs => h.execDispatchRemote hs
  | .execUpdateVersionUpperBound _, hs => h.execUpdateVersionUpperBound hs
  | .execFinish _, hs => h.execFinish hs

/-- **The invariant holds in every reachable state.** -/
theorem Reachable.inv (h : Reachable S s) : Inv s := by
  induction h with
  | init n => exact inv_init n
  | next _ _ hs ih => exact ih.next hs

end Reachable

end NodeReplication.UnboundedLog
