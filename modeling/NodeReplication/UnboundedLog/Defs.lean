import NodeReplication.Basic

/-!
# The unbounded log

The tokenized state machine `UnboundedLog` of the source: an unbounded, never collected log,
the replica and local version of every node, the version upper bound, and the life cycle of
every read request and update request.

A combiner cycle of node `n` places updates at the global tail (`updatePlaceOpsInLogOne`),
loads its local version `lversion` and then the global tail, replays the log from `lversion`
up to the loaded tail (`execDispatchLocal` for entries of `n`, `execDispatchRemote` for the
others), raises the version upper bound and publishes the loaded tail as its local version.
A read records the version upper bound, waits for a local version that reaches it, and reads
a replica whose combiner is `ready`.

* `ReadonlyState`, `UpdateState`, `CombinerState`, `State` and the sixteen transitions.
* `init` (`initialize`), `Step`, `next`, `run` and `Reachable`.

Maps are partial functions `K → Option V`, sequences are lists. `get_new_nat` is not in the
source tree; all the source says of it (`get_new_nat_not_in`) is that the new request id is not
in use, so `readonlyStart` and `updateStart` take the id as an argument and require it to be
fresh. An out-of-range `Seq::index` gives request id `0`.
-/

namespace NodeReplication.UnboundedLog

/-- The progress of a read request (`ReadonlyState`). -/
inductive ReadonlyState (ReadonlyOp ReturnType : Type) where
  | init (op : ReadonlyOp)
  | versionUpperBound (op : ReadonlyOp) (versionUpperBound : ℕ)
  | readyToRead (op : ReadonlyOp) (nodeId : ℕ) (versionUpperBound : ℕ)
  | done (op : ReadonlyOp) (ret : ReturnType) (nodeId : ℕ) (versionUpperBound : ℕ)

/-- The progress of an update request (`UpdateState`). -/
inductive UpdateState (UpdateOp ReturnType : Type) where
  | init (op : UpdateOp)
  | placed (op : UpdateOp) (idx : ℕ)
  | applied (ret : ReturnType) (idx : ℕ)
  | done (ret : ReturnType) (idx : ℕ)

/-- The phase of a node's combiner (`CombinerState`). -/
inductive CombinerState where
  | ready
  | placed (queuedOps : List ℕ)
  | loadedLocalVersion (queuedOps : List ℕ) (lversion : ℕ)
  | loop (queuedOps : List ℕ) (lversion : ℕ) (idx : ℕ) (globalTail : ℕ)
  | updatedVersion (queuedOps : List ℕ) (globalTail : ℕ)

/-- The request ids of a combiner's batch (`queued_ops`). -/
def CombinerState.queuedOps : CombinerState → List ℕ
  | .ready => []
  | .placed q | .loadedLocalVersion q _ | .loop q _ _ _ | .updatedVersion q _ => q

/-- The fields of the `UnboundedLog` state machine. -/
structure State (S UpdateOp ReadonlyOp ReturnType : Type) where
  numReplicas : ℕ
  log : ℕ → Option (LogEntry UpdateOp)
  globalTail : ℕ
  replicas : ℕ → Option S
  localVersions : ℕ → Option ℕ
  versionUpperBound : ℕ
  localReads : ℕ → Option (ReadonlyState ReadonlyOp ReturnType)
  localUpdates : ℕ → Option (UpdateState UpdateOp ReturnType)
  combiner : ℕ → Option CombinerState

variable {S U R T : Type}

/-- The version node `nodeId`'s replica is at (`current_local_version`): its published local
version until it loads one, then the replay cursor, then the loaded tail. A missing key reads
as `0`. -/
def State.currentLocalVersion (s : State S U R T) (nodeId : ℕ) : ℕ :=
  match s.combiner nodeId with
  | some .ready | some (.placed _) => (s.localVersions nodeId).getD 0
  | some (.loadedLocalVersion _ lversion) | some (.loop _ lversion _ _) => lversion
  | some (.updatedVersion _ globalTail) => globalTail
  | none => 0

/-- The initial state (`initialize`) with `numberOfNodes` replicas. -/
def init [NRState S U R T] (numberOfNodes : ℕ) : State S U R T where
  numReplicas := numberOfNodes
  log _ := none
  globalTail := 0
  replicas n := if n < numberOfNodes then some NRState.init else none
  localVersions n := if n < numberOfNodes then some 0 else none
  versionUpperBound := 0
  localReads _ := none
  localUpdates _ := none
  combiner n := if n < numberOfNodes then some .ready else none

/-! ## Read-only transitions -/

section Transitions

variable (s : State S U R T)

/-- `readonly_start`: a read request enters with the fresh id `rid`. -/
def readonlyStart (op : R) (rid : ℕ) : Option (State S U R T) :=
  if (s.localReads rid).isNone then
    some { s with localReads := Function.update s.localReads rid (some (.init op)) }
  else none

/-- `readonly_read_ctail`: the request records the version upper bound. -/
def readonlyReadCtail (rid : ℕ) : Option (State S U R T) :=
  match s.localReads rid with
  | some (.init op) =>
    some { s with
      localReads := Function.update s.localReads rid
        (some (.versionUpperBound op s.versionUpperBound)) }
  | _ => none

/-- `readonly_ready_to_read`: a node whose local version reached the recorded bound is chosen. -/
def readonlyReadyToRead (rid : ℕ) (nodeId : ℕ) : Option (State S U R T) :=
  match s.localReads rid, s.localVersions nodeId with
  | some (.versionUpperBound op versionUpperBound), some localHead =>
    if versionUpperBound ≤ localHead then
      some { s with
        localReads := Function.update s.localReads rid
          (some (.readyToRead op nodeId versionUpperBound)) }
    else none
  | _, _ => none

/-- `readonly_apply`: the read runs on the node's replica while its combiner is `ready`. -/
def readonlyApply [NRState S U R T] (rid : ℕ) : Option (State S U R T) :=
  match s.localReads rid with
  | some (.readyToRead op nodeId versionUpperBound) =>
    match s.combiner nodeId, s.replicas nodeId with
    | some .ready, some state =>
      some { s with
        localReads := Function.update s.localReads rid
          (some (.done op (NRState.read state op) nodeId versionUpperBound)) }
    | _, _ => none
  | _ => none

/-- `readonly_finish`: a done read leaves. The source's further arguments restate the stored
`done` value. -/
def readonlyFinish (rid : ℕ) : Option (State S U R T) :=
  match s.localReads rid with
  | some (.done _ _ _ _) => some { s with localReads := Function.update s.localReads rid none }
  | _ => none

/-! ## Update transitions -/

/-- `update_start`: an update request enters with the fresh id `rid`. -/
def updateStart (op : U) (rid : ℕ) : Option (State S U R T) :=
  if (s.localUpdates rid).isNone then
    some { s with localUpdates := Function.update s.localUpdates rid (some (.init op)) }
  else none

/-- `update_place_ops_in_log_one`: a placing combiner appends one update at the global tail. -/
def updatePlaceOpsInLogOne (nodeId : ℕ) (rid : ℕ) : Option (State S U R T) :=
  match s.combiner nodeId, s.localUpdates rid with
  | some (.placed queuedOps), some (.init op) =>
    some { s with
      globalTail := s.globalTail + 1
      log := Function.update s.log s.globalTail (some ⟨op, nodeId⟩)
      localUpdates := Function.update s.localUpdates rid (some (.placed op s.globalTail))
      combiner := Function.update s.combiner nodeId (some (.placed (queuedOps ++ [rid]))) }
  | _, _ => none

/-- `update_done`: an applied update below the version upper bound is done. -/
def updateDone (rid : ℕ) : Option (State S U R T) :=
  match s.localUpdates rid with
  | some (.applied ret idx) =>
    if idx < s.versionUpperBound then
      some { s with localUpdates := Function.update s.localUpdates rid (some (.done ret idx)) }
    else none
  | _ => none

/-- `update_finish`: a done update leaves. -/
def updateFinish (rid : ℕ) : Option (State S U R T) :=
  match s.localUpdates rid with
  | some (.done _ _) => some { s with localUpdates := Function.update s.localUpdates rid none }
  | _ => none

/-! ## Combiner transitions -/

/-- `exec_trivial_start`: a ready combiner starts a batch. -/
def execTrivialStart (nodeId : ℕ) : Option (State S U R T) :=
  match s.combiner nodeId with
  | some .ready => some { s with combiner := Function.update s.combiner nodeId (some (.placed [])) }
  | _ => none

/-- `exec_load_local_version`. -/
def execLoadLocalVersion (nodeId : ℕ) : Option (State S U R T) :=
  match s.combiner nodeId, s.localVersions nodeId with
  | some (.placed queuedOps), some lversion =>
    some { s with
      combiner := Function.update s.combiner nodeId (some (.loadedLocalVersion queuedOps lversion)) }
  | _, _ => none

/-- `exec_load_global_head`: the replay will stop at the current global tail. -/
def execLoadGlobalHead (nodeId : ℕ) : Option (State S U R T) :=
  match s.combiner nodeId with
  | some (.loadedLocalVersion queuedOps lversion) =>
    some { s with
      combiner := Function.update s.combiner nodeId (some (.loop queuedOps lversion 0 s.globalTail)) }
  | _ => none

/-- `exec_update_version_upper_bound`: after the replay, raise the bound to the loaded tail. -/
def execUpdateVersionUpperBound (nodeId : ℕ) : Option (State S U R T) :=
  match s.combiner nodeId with
  | some (.loop queuedOps lversion _ globalTail) =>
    if lversion = globalTail then
      some { s with
        versionUpperBound :=
          if s.versionUpperBound ≥ globalTail then s.versionUpperBound else globalTail
        combiner := Function.update s.combiner nodeId
          (some (.updatedVersion queuedOps globalTail)) }
    else none
  | _ => none

/-- `exec_finish`: publish the loaded tail as the local version. -/
def execFinish (nodeId : ℕ) : Option (State S U R T) :=
  match s.combiner nodeId, s.localVersions nodeId with
  | some (.updatedVersion _ globalTail), some _ =>
    some { s with
      localVersions := Function.update s.localVersions nodeId (some globalTail)
      combiner := Function.update s.combiner nodeId (some .ready) }
  | _, _ => none

variable [NRState S U R T]

/-- `exec_dispatch_local`: replay an entry of this node and record its result for the request
at the queue index. -/
def execDispatchLocal (nodeId : ℕ) : Option (State S U R T) :=
  match s.combiner nodeId, s.replicas nodeId with
  | some (.loop queuedOps lversion idx globalTail), some oldNrState =>
    let rid := queuedOps.getD idx 0
    match s.localUpdates rid, s.log lversion with
    | some _, some logEntry =>
      if lversion < globalTail ∧ logEntry.nodeId = nodeId then
        let r := NRState.update oldNrState logEntry.op
        some { s with
          localUpdates := Function.update s.localUpdates rid (some (.applied r.2 lversion))
          replicas := Function.update s.replicas nodeId (some r.1)
          combiner := Function.update s.combiner nodeId
            (some (.loop queuedOps (lversion + 1) (idx + 1) globalTail)) }
      else none
    | _, _ => none
  | _, _ => none

/-- `exec_dispatch_remote`: replay an entry of another node. -/
def execDispatchRemote (nodeId : ℕ) : Option (State S U R T) :=
  match s.combiner nodeId, s.replicas nodeId with
  | some (.loop queuedOps lversion idx globalTail), some oldNrState =>
    match s.log lversion with
    | some logEntry =>
      if lversion < globalTail ∧ logEntry.nodeId ≠ nodeId then
        some { s with
          replicas := Function.update s.replicas nodeId
            (some (NRState.update oldNrState logEntry.op).1)
          combiner := Function.update s.combiner nodeId
            (some (.loop queuedOps (lversion + 1) idx globalTail)) }
      else none
    | none => none
  | _, _ => none

end Transitions

/-! ## Runs -/

/-- A transition with its arguments. -/
inductive Step (UpdateOp ReadonlyOp : Type) where
  | readonlyStart (op : ReadonlyOp) (rid : ℕ)
  | readonlyReadCtail (rid : ℕ)
  | readonlyReadyToRead (rid : ℕ) (nodeId : ℕ)
  | readonlyApply (rid : ℕ)
  | readonlyFinish (rid : ℕ)
  | updateStart (op : UpdateOp) (rid : ℕ)
  | updatePlaceOpsInLogOne (nodeId : ℕ) (rid : ℕ)
  | updateDone (rid : ℕ)
  | updateFinish (rid : ℕ)
  | execTrivialStart (nodeId : ℕ)
  | execLoadLocalVersion (nodeId : ℕ)
  | execLoadGlobalHead (nodeId : ℕ)
  | execDispatchLocal (nodeId : ℕ)
  | execDispatchRemote (nodeId : ℕ)
  | execUpdateVersionUpperBound (nodeId : ℕ)
  | execFinish (nodeId : ℕ)

section Runs

variable [NRState S U R T]

/-- The transition a step takes, `none` when it is not enabled. -/
def next (s : State S U R T) : Step U R → Option (State S U R T)
  | .readonlyStart op rid => readonlyStart s op rid
  | .readonlyReadCtail rid => readonlyReadCtail s rid
  | .readonlyReadyToRead rid n => readonlyReadyToRead s rid n
  | .readonlyApply rid => readonlyApply s rid
  | .readonlyFinish rid => readonlyFinish s rid
  | .updateStart op rid => updateStart s op rid
  | .updatePlaceOpsInLogOne n rid => updatePlaceOpsInLogOne s n rid
  | .updateDone rid => updateDone s rid
  | .updateFinish rid => updateFinish s rid
  | .execTrivialStart n => execTrivialStart s n
  | .execLoadLocalVersion n => execLoadLocalVersion s n
  | .execLoadGlobalHead n => execLoadGlobalHead s n
  | .execDispatchLocal n => execDispatchLocal s n
  | .execDispatchRemote n => execDispatchRemote s n
  | .execUpdateVersionUpperBound n => execUpdateVersionUpperBound s n
  | .execFinish n => execFinish s n

/-- The state after a sequence of steps, `none` if one of them is not enabled. -/
def run : State S U R T → List (Step U R) → Option (State S U R T)
  | s, [] => some s
  | s, st :: sts => (next s st).bind fun s' => run s' sts

variable (S) in
/-- The states reachable from `init` by any interleaving of transitions. -/
inductive Reachable : State S U R T → Prop
  | init (numberOfNodes : ℕ) : Reachable (init numberOfNodes)
  | next {s s' : State S U R T} (st : Step U R) : Reachable s → next s st = some s' → Reachable s'

theorem Reachable.run {s s' : State S U R T} (h : Reachable S s) :
    ∀ {sts : List (Step U R)}, run s sts = some s' → Reachable S s'
  | [], hr => by cases hr; exact h
  | st :: sts, hr => by
    obtain ⟨s₁, h₁, hr⟩ := Option.bind_eq_some.mp hr
    exact (h.next st h₁).run hr

end Runs

end NodeReplication.UnboundedLog
