import NodeReplication.Basic
import Mathlib.Data.Int.Defs

/-!
# The cyclic buffer

The tokenized state machine `CyclicBuffer` of the source. The buffer holds `bufferSize` slots;
the logical index `i` lives in slot `i % bufferSize`, and the slot's alive bit tells whether it
holds the entry of `i` (`EntryIsAlive`): the bit flips once per wrap. Each node reads the log
from its local head, may recompute the global head as the minimum of the local heads, and
appends by reserving the range `[tail, newTail)` and then filling it slot by slot.

* `ReaderState`, `CombinerState`, `State` and the twenty transitions of the source, each a
  partial function `State → Option State`: `none` when a guard fails.
* `init` (`initialize`), `Step`, `next`, `run` and `Reachable`: any interleaving of
  transitions after `init`.

The maps of the source are partial functions `K → Option V`. A `remove` or `have` of a map
field is a guard, and `add`, `deposit`, `withdraw` and `update` are the new values of the fields.
What the source discharges by proof instead (an `assert`, a `withdraw` of present keys) is not a
guard here: those are properties of the model, proved or refuted elsewhere. `stored_type_inv` is
declared without a body in the source, so it is a parameter of every transition; a
`birds_eye` read of a missing key (`Map::index`) gives the default value.
-/

namespace NodeReplication.CyclicBuffer

/-- The progress of a reader (`ReaderState`). -/
inductive ReaderState (StoredType : Type) where
  | starting (start : ℕ)
  | range (start end' cur : ℕ)
  | guard (start end' cur : ℕ) (val : StoredType)

/-- The state of a node's combiner as the buffer sees it (`CombinerState`). -/
inductive CombinerState (StoredType : Type) where
  | idle
  | reading (r : ReaderState StoredType)
  | advancingHead (idx minHead : ℕ)
  | advancingTail (observedHead : ℕ)
  | appending (curIdx tail : ℕ)

/-- The fields of the `CyclicBuffer` state machine. -/
structure State (StoredType : Type) where
  bufferSize : ℕ
  numReplicas : ℕ
  head : ℕ
  tail : ℕ
  localHeads : ℕ → Option ℕ
  contents : ℤ → Option StoredType
  aliveBits : ℕ → Option Bool
  combinerState : ℕ → Option (CombinerState StoredType)

/-- The alive bit that marks slot `logical % bufferSize` as holding `logical`
(`logical_to_alive_bit_alive_when`). -/
def logicalToAliveBitAliveWhen (logical : ℤ) (bufferSize : ℕ) : Bool :=
  logical / bufferSize % 2 == 0

/-- The slot of `logical` holds `logical`'s entry (`entry_is_alive`). -/
def EntryIsAlive (aliveBits : ℕ → Option Bool) (logical : ℤ) (bufferSize : ℕ) : Prop :=
  aliveBits (logical % bufferSize).toNat = some (logicalToAliveBitAliveWhen logical bufferSize)

instance (aliveBits : ℕ → Option Bool) (logical : ℤ) (bufferSize : ℕ) :
    Decidable (EntryIsAlive aliveBits logical bufferSize) :=
  inferInstanceAs (Decidable (_ = _))

/-- `map_min_value m idx`: the minimum of `m 0, …, m (idx - 1)`, and `m 0` for `idx = 0`. -/
def mapMinValue (m : ℕ → ℕ) : ℕ → ℕ
  | 0 => m 0
  | idx + 1 => min (mapMinValue m idx) (m idx)

/-- The initial state (`initialize`): every replica idle at local head `0`, every alive bit
`false`, and the given contents. -/
def init {StoredType : Type} (bufferSize numReplicas : ℕ) (contents : ℤ → Option StoredType) :
    State StoredType where
  bufferSize := bufferSize
  numReplicas := numReplicas
  head := 0
  tail := 0
  localHeads i := if i < numReplicas then some 0 else none
  contents := contents
  aliveBits i := if i < bufferSize then some false else none
  combinerState i := if i < numReplicas then some .idle else none

namespace State

variable {StoredType : Type}

/-- The state with node `n`'s combiner state replaced. -/
@[simps]
def setCombiner (s : State StoredType) (n : ℕ) (c : CombinerState StoredType) :
    State StoredType :=
  { s with combinerState := Function.update s.combinerState n (some c) }

end State

/-! ## Transitions -/

section Transitions

variable {StoredType : Type} [Inhabited StoredType] (s : State StoredType) (nodeId : ℕ)

/-- `reader_do_start`: an idle node starts a read at its local head. -/
def readerDoStart : Option (State StoredType) :=
  match s.localHeads nodeId, s.combinerState nodeId with
  | some localHead, some .idle => some (s.setCombiner nodeId (.reading (.starting localHead)))
  | _, _ => none

/-- `reader_do_enter`: the read range ends at the current tail. -/
def readerDoEnter : Option (State StoredType) :=
  match s.combinerState nodeId with
  | some (.reading (.starting start)) =>
    some (s.setCombiner nodeId (.reading (.range start s.tail start)))
  | _ => none

/-- `reader_do_guard`: once the slot of `cur` is alive for `cur`, the reader holds its entry. -/
def readerDoGuard : Option (State StoredType) :=
  match s.combinerState nodeId with
  | some (.reading (.range start end' cur)) =>
    if s.aliveBits (cur % s.bufferSize) = some (cur / s.bufferSize % 2 == 0) then
      some (s.setCombiner nodeId (.reading (.guard start end' cur ((s.contents cur).getD default))))
    else none
  | _ => none

/-- `reader_do_unguard`: release the entry and move to the next index. -/
def readerDoUnguard : Option (State StoredType) :=
  match s.combinerState nodeId with
  | some (.reading (.guard start end' cur _)) =>
    some (s.setCombiner nodeId (.reading (.range start end' (cur + 1))))
  | _ => none

/-- `reader_do_finish`: the read ends and the local head becomes the end of its range. -/
def readerDoFinish : Option (State StoredType) :=
  match s.combinerState nodeId, s.localHeads nodeId with
  | some (.reading (.range _ end' _)), some _ =>
    some { s.setCombiner nodeId .idle with
      localHeads := Function.update s.localHeads nodeId (some end') }
  | _, _ => none

/-- `reader_do_abort`: a read that holds no entry is dropped. -/
def readerDoAbort : Option (State StoredType) :=
  match s.combinerState nodeId with
  | some (.reading (.starting _)) | some (.reading (.range _ _ _)) =>
    some (s.setCombiner nodeId .idle)
  | _ => none

/-- `init_advance_head`: start a scan of the local heads, seeded with this node's local head. -/
def initAdvanceHead : Option (State StoredType) :=
  match s.localHeads nodeId, s.combinerState nodeId with
  | some localHead0, some .idle => some (s.setCombiner nodeId (.advancingHead 1 localHead0))
  | _, _ => none

/-- `step_advance_head`: fold the local head of replica `idx` into the minimum. -/
def stepAdvanceHead : Option (State StoredType) :=
  match s.combinerState nodeId with
  | some (.advancingHead idx minHead) =>
    if idx < s.numReplicas then
      match s.localHeads idx with
      | some localHeadAtIdx =>
        some (s.setCombiner nodeId (.advancingHead (idx + 1) (min minHead localHeadAtIdx)))
      | none => none
    else none
  | _ => none

/-- `abandon_advance_head`. -/
def abandonAdvanceHead : Option (State StoredType) :=
  match s.combinerState nodeId with
  | some (.advancingHead _ _) => some (s.setCombiner nodeId .idle)
  | _ => none

/-- `finish_advance_head`: after the last replica, the minimum becomes the head. -/
def finishAdvanceHead : Option (State StoredType) :=
  match s.combinerState nodeId with
  | some (.advancingHead idx minHead) =>
    if idx = s.numReplicas then some { s.setCombiner nodeId .idle with head := minHead }
    else none
  | _ => none

/-- `init_advance_tail`: record the current head before reserving. -/
def initAdvanceTail : Option (State StoredType) :=
  match s.localHeads 0, s.combinerState nodeId with
  | some _, some .idle => some (s.setCombiner nodeId (.advancingTail s.head))
  | _, _ => none

/-- `abandon_advance_tail`. -/
def abandonAdvanceTail : Option (State StoredType) :=
  match s.combinerState nodeId with
  | some (.advancingTail _) => some (s.setCombiner nodeId .idle)
  | _ => none

/-- The logical indices `finish_advance_tail` withdraws: those a reservation up to `newTail`
overwrites, `tail - bufferSize ≤ i < newTail - bufferSize`. -/
def Withdrawn (newTail : ℕ) (i : ℤ) : Prop :=
  (s.tail : ℤ) - s.bufferSize ≤ i ∧ i < (newTail : ℤ) - s.bufferSize

instance (newTail : ℕ) (i : ℤ) : Decidable (Withdrawn s newTail i) :=
  inferInstanceAs (Decidable (_ ∧ _))

/-- `finish_advance_tail`: reserve `[tail, newTail)`, at most one buffer past the observed head,
and withdraw the entries the reservation overwrites. -/
def finishAdvanceTail (newTail : ℕ) : Option (State StoredType) :=
  match s.combinerState nodeId with
  | some (.advancingTail observedHead) =>
    if s.tail ≤ newTail ∧ newTail ≤ observedHead + s.bufferSize then
      some { s.setCombiner nodeId (.appending s.tail newTail) with
        tail := newTail
        contents := fun i => if Withdrawn s newTail i then none else s.contents i }
    else none
  | _ => none

variable (storedTypeInv : StoredType → ℤ → Bool)

/-- `append_flip_bit`: deposit an entry at `curIdx` and flip its slot's alive bit. -/
def appendFlipBit (deposited : StoredType) : Option (State StoredType) :=
  match s.combinerState nodeId with
  | some (.appending curIdx tail) =>
    match s.aliveBits (curIdx % s.bufferSize) with
    | some _ =>
      if storedTypeInv deposited curIdx then
        some { s.setCombiner nodeId (.appending (curIdx + 1) tail) with
          aliveBits := Function.update s.aliveBits (curIdx % s.bufferSize)
            (some (curIdx / s.bufferSize % 2 == 0))
          contents := Function.update s.contents curIdx (some deposited) }
      else none
    | none => none
  | _ => none

/-- `finish_appending`: the reservation is filled. -/
def finishAppending : Option (State StoredType) :=
  match s.combinerState nodeId with
  | some (.appending curIdx tail) => if curIdx = tail then some (s.setCombiner nodeId .idle) else none
  | _ => none

end Transitions

/-! ## Runs -/

/-- A transition with its arguments. -/
inductive Step (StoredType : Type) where
  | readerDoStart (nodeId : ℕ)
  | readerDoEnter (nodeId : ℕ)
  | readerDoGuard (nodeId : ℕ)
  | readerDoUnguard (nodeId : ℕ)
  | readerDoFinish (nodeId : ℕ)
  | readerDoAbort (nodeId : ℕ)
  | initAdvanceHead (nodeId : ℕ)
  | stepAdvanceHead (nodeId : ℕ)
  | abandonAdvanceHead (nodeId : ℕ)
  | finishAdvanceHead (nodeId : ℕ)
  | initAdvanceTail (nodeId : ℕ)
  | abandonAdvanceTail (nodeId : ℕ)
  | finishAdvanceTail (nodeId : ℕ) (newTail : ℕ)
  | appendFlipBit (nodeId : ℕ) (deposited : StoredType)
  | finishAppending (nodeId : ℕ)

/-- The node a step acts for. -/
def Step.nodeId {StoredType : Type} : Step StoredType → ℕ
  | .readerDoStart n | .readerDoEnter n | .readerDoGuard n | .readerDoUnguard n
  | .readerDoFinish n | .readerDoAbort n | .initAdvanceHead n | .stepAdvanceHead n
  | .abandonAdvanceHead n | .finishAdvanceHead n | .initAdvanceTail n | .abandonAdvanceTail n
  | .finishAdvanceTail n _ | .appendFlipBit n _ | .finishAppending n => n

section Runs

variable {StoredType : Type} [Inhabited StoredType] (storedTypeInv : StoredType → ℤ → Bool)

/-- The transition a step takes, `none` when it is not enabled. -/
def next (s : State StoredType) : Step StoredType → Option (State StoredType)
  | .readerDoStart n => readerDoStart s n
  | .readerDoEnter n => readerDoEnter s n
  | .readerDoGuard n => readerDoGuard s n
  | .readerDoUnguard n => readerDoUnguard s n
  | .readerDoFinish n => readerDoFinish s n
  | .readerDoAbort n => readerDoAbort s n
  | .initAdvanceHead n => initAdvanceHead s n
  | .stepAdvanceHead n => stepAdvanceHead s n
  | .abandonAdvanceHead n => abandonAdvanceHead s n
  | .finishAdvanceHead n => finishAdvanceHead s n
  | .initAdvanceTail n => initAdvanceTail s n
  | .abandonAdvanceTail n => abandonAdvanceTail s n
  | .finishAdvanceTail n newTail => finishAdvanceTail s n newTail
  | .appendFlipBit n deposited => appendFlipBit s n storedTypeInv deposited
  | .finishAppending n => finishAppending s n

/-- The state after a sequence of steps, `none` if one of them is not enabled. -/
def run : State StoredType → List (Step StoredType) → Option (State StoredType)
  | s, [] => some s
  | s, st :: sts => (next storedTypeInv s st).bind fun s' => run s' sts

/-- The initial contents hold exactly the indices `-bufferSize ≤ i < 0`, as `initialize`
requires. -/
def InitialContents (bufferSize : ℕ) (contents : ℤ → Option StoredType) : Prop :=
  ∀ i : ℤ, -(bufferSize : ℤ) ≤ i ∧ i < 0 ↔ (contents i).isSome

/-- The states reachable from `init` by any interleaving of transitions. -/
inductive Reachable : State StoredType → Prop
  | init (bufferSize numReplicas : ℕ) (contents : ℤ → Option StoredType)
      (h : InitialContents bufferSize contents) :
      Reachable (init bufferSize numReplicas contents)
  | next {s s' : State StoredType} (st : Step StoredType) :
      Reachable s → next storedTypeInv s st = some s' → Reachable s'

variable {storedTypeInv} in
theorem Reachable.run {s s' : State StoredType} (h : Reachable storedTypeInv s) :
    ∀ {sts : List (Step StoredType)}, run storedTypeInv s sts = some s' →
      Reachable storedTypeInv s'
  | [], hr => by cases hr; exact h
  | st :: sts, hr => by
    obtain ⟨s₁, h₁, hr⟩ := Option.bind_eq_some.mp hr
    exact (h.next st h₁).run hr

end Runs

end NodeReplication.CyclicBuffer
