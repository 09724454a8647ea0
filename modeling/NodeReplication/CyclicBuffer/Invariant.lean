import NodeReplication.CyclicBuffer.Steps

/-!
# The pointer bounds of the cyclic buffer

The source declares `pointer_ordering`, `pointer_differences`, `reader_state_valid` and
`combiner_state_valid` as invariants. The part of them that bounds positions by the tail holds in
every reachable state (**`Reachable.inv`**): the head, every local head and every position a
node holds are at most the tail, and a reader's range starts at its node's local head.

* `CombinerBounds`, `Inv`, one preservation lemma per transition, `Inv.next`.
* `PointerOrdering`, `head_passes_localHead`: the lower bound `head ≤ localHeads n` fails, since
  `init_advance_head` seeds the scan with the scanning node's local head and never reads
  replica `0`'s.
* `GuardHoldsEntry`, `ReclaimsOnlyRead`, `reclaims_unread_entry`: the tail then advances over an
  entry replica `0` has not read, and replica `0` guards the reclaimed index.
* `PointersAdvance`, `PointersAdvance.of_next`, **`pointersAdvance_of_run`**: along any run from a
  reachable state the tail never decreases and no local head is dropped or moves back.
-/

namespace NodeReplication.CyclicBuffer

variable {σ : Type}

/-- What a node's phase guarantees, given the tail and the node's local head `localHead`: a
read starts at the local head and ends at most at the tail, and every other position it holds
is at most the tail (`reader_state_valid`, `combiner_state_valid`). -/
def CombinerBounds (tail localHead : ℕ) : CombinerState σ → Prop
  | .idle => True
  | .reading (.starting start) => start = localHead
  | .reading (.range start end' cur) | .reading (.guard start end' cur _) =>
    start = localHead ∧ start ≤ end' ∧ end' ≤ tail ∧ start ≤ cur
  | .advancingHead _ minHead => minHead ≤ tail
  | .advancingTail observedHead => observedHead ≤ tail
  | .appending curIdx tail' => localHead ≤ curIdx ∧ tail' ≤ tail

theorem CombinerBounds.mono {tail tail' localHead : ℕ} {c : CombinerState σ}
    (h : CombinerBounds tail localHead c) (hle : tail ≤ tail') :
    CombinerBounds tail' localHead c := by
  rcases c with _ | ((_ | _ | _)) | _ | _ | _ <;> simp only [CombinerBounds] at h ⊢ <;> omega

/-- The pointer bounds that hold in every reachable state. -/
structure Inv (s : State σ) : Prop where
  head_le_tail : s.head ≤ s.tail
  localHead_le_tail : ∀ n v, s.localHeads n = some v → v ≤ s.tail
  combiner : ∀ n c, s.combinerState n = some c →
    ∃ v, s.localHeads n = some v ∧ CombinerBounds s.tail v c

theorem inv_init (bufferSize numReplicas : ℕ) (contents : ℤ → Option σ) :
    Inv (init bufferSize numReplicas contents) where
  head_le_tail := le_rfl
  localHead_le_tail n v h := by
    simp only [init] at h
    split_ifs at h
    cases h
    exact le_rfl
  combiner n c h := by
    simp only [init] at h ⊢
    split_ifs at h with hn
    cases h
    exact ⟨0, if_pos hn, trivial⟩

/-! ## Preservation -/

section Preservation

variable {s s' : State σ} {nodeId : ℕ}

/-- Setting a node's phase to one within bounds keeps the invariant. -/
theorem Inv.setCombiner (h : Inv s) {c : CombinerState σ} {v : ℕ}
    (hv : s.localHeads nodeId = some v) (hc : CombinerBounds s.tail v c) :
    Inv (s.setCombiner nodeId c) where
  head_le_tail := h.head_le_tail
  localHead_le_tail := h.localHead_le_tail
  combiner n c' hc' := by
    rcases State.setCombiner_combinerState_eq_some hc' with ⟨rfl, rfl⟩ | ⟨-, hc'⟩
    · exact ⟨v, hv, hc⟩
    · exact h.combiner n c' hc'

/-- A node's phase may always become idle. -/
theorem Inv.setIdle (h : Inv s) {c : CombinerState σ} (hc : s.combinerState nodeId = some c) :
    Inv (s.setCombiner nodeId .idle) :=
  let ⟨_, hv, _⟩ := h.combiner nodeId c hc
  h.setCombiner hv trivial

theorem Inv.readerDoStart (h : Inv s) (hs : readerDoStart s nodeId = some s') : Inv s' := by
  obtain ⟨v, hv, -, rfl⟩ := readerDoStart_eq_some hs
  exact h.setCombiner hv rfl

theorem Inv.readerDoEnter (h : Inv s) (hs : readerDoEnter s nodeId = some s') : Inv s' := by
  obtain ⟨start, hc, rfl⟩ := readerDoEnter_eq_some hs
  obtain ⟨v, hv, rfl⟩ := h.combiner nodeId _ hc
  exact h.setCombiner hv ⟨rfl, h.localHead_le_tail _ _ hv, le_rfl, le_rfl⟩

theorem Inv.readerDoGuard [Inhabited σ] (h : Inv s) (hs : readerDoGuard s nodeId = some s') :
    Inv s' := by
  obtain ⟨start, end', cur, hc, -, rfl⟩ := readerDoGuard_eq_some hs
  obtain ⟨v, hv, hb⟩ := h.combiner nodeId _ hc
  exact h.setCombiner hv hb

theorem Inv.readerDoUnguard (h : Inv s) (hs : readerDoUnguard s nodeId = some s') : Inv s' := by
  obtain ⟨start, end', cur, val, hc, rfl⟩ := readerDoUnguard_eq_some hs
  obtain ⟨v, hv, h1, h2, h3, h4⟩ := h.combiner nodeId _ hc
  exact h.setCombiner hv ⟨h1, h2, h3, by omega⟩

theorem Inv.readerDoFinish (h : Inv s) (hs : readerDoFinish s nodeId = some s') : Inv s' := by
  obtain ⟨start, end', cur, lh, hc, -, rfl⟩ := readerDoFinish_eq_some hs
  obtain ⟨v, -, -, -, hend, -⟩ := h.combiner nodeId _ hc
  have hidle := h.setIdle hc
  refine ⟨h.head_le_tail, fun n w hw => ?_, fun n c hc' => ?_⟩ <;> dsimp only at *
  · rw [Function.update_apply] at hw
    split_ifs at hw
    · cases hw; exact hend
    · exact h.localHead_le_tail n w hw
  · rcases State.setCombiner_combinerState_eq_some hc' with ⟨rfl, rfl⟩ | ⟨hn, -⟩
    · exact ⟨end', Function.update_same _ _ _, trivial⟩
    · rw [Function.update_noteq hn]
      exact hidle.combiner n c hc'

theorem Inv.readerDoAbort (h : Inv s) (hs : readerDoAbort s nodeId = some s') : Inv s' := by
  obtain ⟨⟨start, hc⟩ | ⟨start, end', cur, hc⟩, rfl⟩ := readerDoAbort_eq_some hs
  · exact h.setIdle hc
  · exact h.setIdle hc

theorem Inv.initAdvanceHead (h : Inv s) (hs : initAdvanceHead s nodeId = some s') : Inv s' := by
  obtain ⟨v, hv, -, rfl⟩ := initAdvanceHead_eq_some hs
  exact h.setCombiner hv (h.localHead_le_tail _ _ hv)

theorem Inv.stepAdvanceHead (h : Inv s) (hs : stepAdvanceHead s nodeId = some s') : Inv s' := by
  obtain ⟨idx, minHead, lh, hc, -, -, rfl⟩ := stepAdvanceHead_eq_some hs
  obtain ⟨v, hv, hb⟩ := h.combiner nodeId _ hc
  exact h.setCombiner hv (Nat.le_trans (Nat.min_le_left _ _) hb)

theorem Inv.abandonAdvanceHead (h : Inv s) (hs : abandonAdvanceHead s nodeId = some s') :
    Inv s' := by
  obtain ⟨idx, minHead, hc, rfl⟩ := abandonAdvanceHead_eq_some hs
  exact h.setIdle hc

theorem Inv.finishAdvanceHead (h : Inv s) (hs : finishAdvanceHead s nodeId = some s') :
    Inv s' := by
  obtain ⟨minHead, hc, rfl⟩ := finishAdvanceHead_eq_some hs
  obtain ⟨v, -, hb⟩ := h.combiner nodeId _ hc
  have hidle := h.setIdle hc
  exact ⟨hb, hidle.localHead_le_tail, hidle.combiner⟩

theorem Inv.initAdvanceTail (h : Inv s) (hs : initAdvanceTail s nodeId = some s') : Inv s' := by
  obtain ⟨-, hc, rfl⟩ := initAdvanceTail_eq_some hs
  obtain ⟨v, hv, -⟩ := h.combiner nodeId _ hc
  exact h.setCombiner hv h.head_le_tail

theorem Inv.abandonAdvanceTail (h : Inv s) (hs : abandonAdvanceTail s nodeId = some s') :
    Inv s' := by
  obtain ⟨observedHead, hc, rfl⟩ := abandonAdvanceTail_eq_some hs
  exact h.setIdle hc

theorem Inv.finishAdvanceTail (h : Inv s) {newTail : ℕ}
    (hs : finishAdvanceTail s nodeId newTail = some s') : Inv s' := by
  obtain ⟨observedHead, hc, hle, -, rfl⟩ := finishAdvanceTail_eq_some hs
  obtain ⟨v, hv, -⟩ := h.combiner nodeId _ hc
  refine ⟨Nat.le_trans h.head_le_tail hle,
    fun n w hw => Nat.le_trans (h.localHead_le_tail n w hw) hle, fun n c hc' => ?_⟩
  rcases State.setCombiner_combinerState_eq_some hc' with ⟨rfl, rfl⟩ | ⟨-, hc'⟩
  · exact ⟨v, hv, h.localHead_le_tail _ _ hv, le_rfl⟩
  · obtain ⟨w, hw, hb⟩ := h.combiner n c hc'
    exact ⟨w, hw, hb.mono hle⟩

theorem Inv.appendFlipBit (h : Inv s) {storedTypeInv : σ → ℤ → Bool} {deposited : σ}
    (hs : appendFlipBit s nodeId storedTypeInv deposited = some s') : Inv s' := by
  obtain ⟨curIdx, tail, bit, hc, -, -, rfl⟩ := appendFlipBit_eq_some hs
  obtain ⟨v, hv, h1, h2⟩ := h.combiner nodeId _ hc
  have happ : Inv (s.setCombiner nodeId (.appending (curIdx + 1) tail)) :=
    h.setCombiner hv ⟨by omega, h2⟩
  exact ⟨happ.head_le_tail, happ.localHead_le_tail, happ.combiner⟩

theorem Inv.finishAppending (h : Inv s) (hs : finishAppending s nodeId = some s') : Inv s' := by
  obtain ⟨tail, hc, rfl⟩ := finishAppending_eq_some hs
  exact h.setIdle hc

end Preservation

/-! ## Every reachable state -/

section Reachable

variable [Inhabited σ] {storedTypeInv : σ → ℤ → Bool} {s s' : State σ}

/-- Every transition keeps the invariant. -/
theorem Inv.next (h : Inv s) : ∀ {st : Step σ}, next storedTypeInv s st = some s' → Inv s'
  | .readerDoStart _, hs => h.readerDoStart hs
  | .readerDoEnter _, hs => h.readerDoEnter hs
  | .readerDoGuard _, hs => h.readerDoGuard hs
  | .readerDoUnguard _, hs => h.readerDoUnguard hs
  | .readerDoFinish _, hs => h.readerDoFinish hs
  | .readerDoAbort _, hs => h.readerDoAbort hs
  | .initAdvanceHead _, hs => h.initAdvanceHead hs
  | .stepAdvanceHead _, hs => h.stepAdvanceHead hs
  | .abandonAdvanceHead _, hs => h.abandonAdvanceHead hs
  | .finishAdvanceHead _, hs => h.finishAdvanceHead hs
  | .initAdvanceTail _, hs => h.initAdvanceTail hs
  | .abandonAdvanceTail _, hs => h.abandonAdvanceTail hs
  | .finishAdvanceTail _ _, hs => h.finishAdvanceTail hs
  | .appendFlipBit _ _, hs => h.appendFlipBit hs
  | .finishAppending _, hs => h.finishAppending hs

/-- **The pointer bounds hold in every reachable state.** -/
theorem Reachable.inv (h : Reachable storedTypeInv s) : Inv s := by
  induction h with
  | init bs nr contents _ => exact inv_init bs nr contents
  | next _ _ hs ih => exact ih.next hs

end Reachable

/-! ## The bounds that fail -/

/-- The initial contents of a buffer of units with `bufferSize` slots, one entry at each of the
indices `-bufferSize ≤ i < 0`. -/
def unitContents (bufferSize : ℕ) (i : ℤ) : Option Unit :=
  if -(bufferSize : ℤ) ≤ i ∧ i < 0 then some () else none

theorem initialContents_unitContents (bufferSize : ℕ) :
    InitialContents bufferSize (unitContents bufferSize) := fun i => by
  unfold unitContents
  split_ifs with h <;> simp [h]

/-- `head ≤ localHeads n ≤ tail ≤ localHeads n + bufferSize` for every replica `n`, as
`pointer_ordering` and `pointer_differences` declare. -/
def PointerOrdering (s : State σ) : Prop :=
  ∀ n, n < s.numReplicas → ∀ v, s.localHeads n = some v →
    s.head ≤ v ∧ v ≤ s.tail ∧ s.tail ≤ v + s.bufferSize

/-- Two replicas and two slots: node `0` appends one entry, replica `1` reads it, then scans the
local heads from its own and installs `1` as the head while replica `0` is still at `0`. -/
def headRun : List (Step Unit) :=
  [.initAdvanceTail 0, .finishAdvanceTail 0 1, .appendFlipBit 0 (), .finishAppending 0,
    .readerDoStart 1, .readerDoEnter 1, .readerDoGuard 1, .readerDoUnguard 1, .readerDoFinish 1,
    .initAdvanceHead 1, .stepAdvanceHead 1, .finishAdvanceHead 1]

theorem head_passes_localHead :
    ∃ s : State Unit, Reachable (fun _ _ => true) s ∧ s.head = 1 ∧ s.localHeads 0 = some 0 ∧
      ¬ PointerOrdering s :=
  ⟨_, (Reachable.init 2 2 _ (initialContents_unitContents 2)).run
    (show run _ (init 2 2 (unitContents 2)) headRun = some _ from rfl), rfl, rfl,
    fun h => absurd (h 0 (by decide) 0 rfl).1 (by decide)⟩

/-- A guarding reader holds the entry of its index, as `reader_state_valid` declares. -/
def GuardHoldsEntry (s : State σ) : Prop :=
  ∀ n start end' cur val, s.combinerState n = some (.reading (.guard start end' cur val)) →
    s.contents cur = some val

/-- Every enabled `finish_advance_tail` withdraws only entries that are in the contents and
below the local head of every replica. -/
def ReclaimsOnlyRead (s : State σ) : Prop :=
  ∀ nodeId newTail s', finishAdvanceTail s nodeId newTail = some s' →
    ∀ i, Withdrawn s newTail i → (s.contents i).isSome ∧ ∀ n v, s.localHeads n = some v → i < v

/-- After `headRun`, replica `1` reserves up to `3`, which withdraws index `0` while replica `0`
has not read it; replica `0` then guards index `0`. -/
theorem reclaims_unread_entry :
    (∃ s : State Unit, Reachable (fun _ _ => true) s ∧ ¬ ReclaimsOnlyRead s) ∧
      ∃ s : State Unit, Reachable (fun _ _ => true) s ∧ ¬ GuardHoldsEntry s :=
  ⟨⟨_, (Reachable.init 2 2 _ (initialContents_unitContents 2)).run
      (show run _ (init 2 2 (unitContents 2)) (headRun ++ [.initAdvanceTail 1]) = some _ from rfl),
      fun h => absurd ((h 1 3 _ rfl 0 (by decide)).2 0 0 rfl) (by decide)⟩,
    ⟨_, (Reachable.init 2 2 _ (initialContents_unitContents 2)).run
      (show run _ (init 2 2 (unitContents 2)) (headRun ++ [.initAdvanceTail 1,
        .finishAdvanceTail 1 3, .readerDoStart 0, .readerDoEnter 0, .readerDoGuard 0]) =
        some _ from rfl),
      fun h => absurd (h 0 0 3 0 () rfl) (by decide)⟩⟩


/-! ## The tail and the local heads only move forward -/

section Advance

variable {s s' s'' : State σ}

/-- The tail of `s'` is at or past that of `s`, and every replica with a local head in `s` has
one in `s'` at or past it. -/
def PointersAdvance (s s' : State σ) : Prop :=
  s.tail ≤ s'.tail ∧ ∀ n v, s.localHeads n = some v → ∃ v', s'.localHeads n = some v' ∧ v ≤ v'

theorem PointersAdvance.refl (s : State σ) : PointersAdvance s s :=
  ⟨le_rfl, fun _ v hv => ⟨v, hv, le_rfl⟩⟩

theorem PointersAdvance.trans (h : PointersAdvance s s') (h' : PointersAdvance s' s'') :
    PointersAdvance s s'' := by
  refine ⟨Nat.le_trans h.1 h'.1, fun n v hv => ?_⟩
  obtain ⟨v', hv', hle⟩ := h.2 n v hv
  obtain ⟨v'', hv'', hle'⟩ := h'.2 n v' hv'
  exact ⟨v'', hv'', Nat.le_trans hle hle'⟩

/-- A change of phase moves no pointer. -/
theorem PointersAdvance.setCombiner {n : ℕ} {c : CombinerState σ} :
    PointersAdvance s (s.setCombiner n c) :=
  .refl s

variable [Inhabited σ] {storedTypeInv : σ → ℤ → Bool}

/-- One step moves neither the tail nor a local head back: `finish_advance_tail` only raises the
tail, and `reader_do_finish` moves its node's local head to the end of a range that starts
there. -/
theorem PointersAdvance.of_next (h : Inv s) :
    ∀ {st : Step σ}, next storedTypeInv s st = some s' → PointersAdvance s s'
  | .readerDoStart _, hs => by
    obtain ⟨_, _, _, rfl⟩ := readerDoStart_eq_some hs; exact .setCombiner
  | .readerDoEnter _, hs => by
    obtain ⟨_, _, rfl⟩ := readerDoEnter_eq_some hs; exact .setCombiner
  | .readerDoGuard _, hs => by
    obtain ⟨_, _, _, _, _, rfl⟩ := readerDoGuard_eq_some hs; exact .setCombiner
  | .readerDoUnguard _, hs => by
    obtain ⟨_, _, _, _, _, rfl⟩ := readerDoUnguard_eq_some hs; exact .setCombiner
  | .readerDoAbort _, hs => by
    obtain ⟨_, rfl⟩ := readerDoAbort_eq_some hs; exact .setCombiner
  | .initAdvanceHead _, hs => by
    obtain ⟨_, _, _, rfl⟩ := initAdvanceHead_eq_some hs; exact .setCombiner
  | .stepAdvanceHead _, hs => by
    obtain ⟨_, _, _, _, _, _, rfl⟩ := stepAdvanceHead_eq_some hs; exact .setCombiner
  | .abandonAdvanceHead _, hs => by
    obtain ⟨_, _, _, rfl⟩ := abandonAdvanceHead_eq_some hs; exact .setCombiner
  | .finishAdvanceHead _, hs => by
    obtain ⟨_, _, rfl⟩ := finishAdvanceHead_eq_some hs; exact .refl s
  | .initAdvanceTail _, hs => by
    obtain ⟨_, _, rfl⟩ := initAdvanceTail_eq_some hs; exact .setCombiner
  | .abandonAdvanceTail _, hs => by
    obtain ⟨_, _, rfl⟩ := abandonAdvanceTail_eq_some hs; exact .setCombiner
  | .appendFlipBit _ _, hs => by
    obtain ⟨_, _, _, _, _, _, rfl⟩ := appendFlipBit_eq_some hs; exact .refl s
  | .finishAppending _, hs => by
    obtain ⟨_, _, rfl⟩ := finishAppending_eq_some hs; exact .setCombiner
  | .finishAdvanceTail _ _, hs => by
    obtain ⟨_, -, hle, -, rfl⟩ := finishAdvanceTail_eq_some hs
    exact ⟨hle, fun _ v hv => ⟨v, hv, le_rfl⟩⟩
  | .readerDoFinish nodeId, hs => by
    obtain ⟨_, end', _, _, hc, -, rfl⟩ := readerDoFinish_eq_some hs
    obtain ⟨v, hv, rfl, hle, -⟩ := h.combiner nodeId _ hc
    refine ⟨le_rfl, fun n w hw => ?_⟩
    rcases eq_or_ne n nodeId with rfl | hn
    · obtain rfl := Option.some.inj (hv.symm.trans hw)
      exact ⟨end', Function.update_same _ _ _, hle⟩
    · exact ⟨w, (Function.update_noteq hn _ _).trans hw, le_rfl⟩

/-- **The tail and the local heads only move forward.** Along any run from a reachable state the
tail never decreases, and no replica's local head is dropped or moves back. -/
theorem pointersAdvance_of_run {s s' : State σ} (h : Reachable storedTypeInv s) :
    ∀ {sts : List (Step σ)}, run storedTypeInv s sts = some s' → PointersAdvance s s'
  | [], hr => by cases hr; exact .refl s
  | st :: _, hr => by
    obtain ⟨_, h₁, hr⟩ := Option.bind_eq_some.mp hr
    exact (PointersAdvance.of_next h.inv h₁).trans (pointersAdvance_of_run (h.next st h₁) hr)

/-- Node `0` appends one entry and replica `1` reads it: the tail and replica `1`'s local head
move to `1`. -/
theorem pointersAdvance_append_read :
    ∃ s : State Unit, Reachable (fun _ _ => true) s ∧ s.tail = 1 ∧ s.localHeads 1 = some 1 ∧
      PointersAdvance (init 2 2 (unitContents 2)) s := by
  have h₀ : Reachable (fun _ _ => true) _ := .init 2 2 _ (initialContents_unitContents 2)
  have hrun := show run (fun _ _ => true) (init 2 2 (unitContents 2))
    [.initAdvanceTail 0, .finishAdvanceTail 0 1, .appendFlipBit 0 (), .finishAppending 0,
      .readerDoStart 1, .readerDoEnter 1, .readerDoGuard 1, .readerDoUnguard 1,
      .readerDoFinish 1] = some _ from rfl
  exact ⟨_, h₀.run hrun, rfl, rfl, pointersAdvance_of_run h₀ hrun⟩

end Advance

end NodeReplication.CyclicBuffer
