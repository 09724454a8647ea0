import NodeReplication.UnboundedLog.Invariant

/-!
# Versions only move forward

A combiner replays the log from its local version up to a snapshot of the global tail, raises
the version upper bound to that snapshot and publishes it as its new local version.

* `VersionsGrow`, `versionsGrow_of_next`: a step keeps the set of nodes and never lowers the global
  tail, the version upper bound, a local version or a current local version.
* `Reachable.localVersions_isSome`, `Inv.localVersion_le`, **`versions_ordered_monotone`**: in
  every reachable state `localVersions n ≤ currentLocalVersion n ≤ globalTail` and
  `localVersions n ≤ versionUpperBound ≤ globalTail`, and no step lowers any of them.
* `LocalUpdatesWf`, `InvLocalUpdates`, `placed_above_versionUpperBound`: the source's
  `inv_local_updates` fails, since a request is placed at the global tail and applied before the
  version upper bound reaches it; only a done request lies below that bound.
-/

namespace NodeReplication.UnboundedLog

variable {S U R T : Type} [NRState S U R T] {s s' : State S U R T}

/-- A step from `s` to `s'` keeps the nodes that have a combiner and a local version, and
lowers no version. -/
structure VersionsGrow (s s' : State S U R T) : Prop where
  combiner_isSome : ∀ n, (s'.combiner n).isSome = (s.combiner n).isSome
  localVersions_isSome : ∀ n, (s'.localVersions n).isSome = (s.localVersions n).isSome
  globalTail_mono : s.globalTail ≤ s'.globalTail
  versionUpperBound_mono : s.versionUpperBound ≤ s'.versionUpperBound
  localVersions_mono :
    ∀ n lv lv', s.localVersions n = some lv → s'.localVersions n = some lv' → lv ≤ lv'
  currentLocalVersion_mono : ∀ n, s.currentLocalVersion n ≤ s'.currentLocalVersion n

section Grow

omit [NRState S U R T]

/-- A step that touches none of the combiners, local versions and tails. -/
theorem VersionsGrow.of_eq (hc : s'.combiner = s.combiner) (hl : s'.localVersions = s.localVersions)
    (hgt : s'.globalTail = s.globalTail) (hv : s'.versionUpperBound = s.versionUpperBound) :
    VersionsGrow s s' where
  combiner_isSome n := by rw [hc]
  localVersions_isSome n := by rw [hl]
  globalTail_mono := hgt.ge
  versionUpperBound_mono := hv.ge
  localVersions_mono n lv lv' h h' := (Option.some.inj (h.symm.trans (hl ▸ h'))).le
  currentLocalVersion_mono n := by simp only [State.currentLocalVersion, hc, hl, le_refl]

/-- A step of node `nodeId`'s combiner, from phase `c` at local version `lv` to phase `c'` at
local version `lv'`, that raises neither version of the node. -/
theorem VersionsGrow.of_node {nodeId lv lv' : ℕ} {c c' : CombinerState}
    (hc : s.combiner nodeId = some c) (hc' : s'.combiner = Function.update s.combiner nodeId (some c'))
    (hlv : s.localVersions nodeId = some lv) (hlv' : s'.localVersions nodeId = some lv')
    (hl : ∀ n, n ≠ nodeId → s'.localVersions n = s.localVersions n)
    (hle : lv ≤ lv') (hver : c.version lv ≤ c'.version lv')
    (hgt : s.globalTail ≤ s'.globalTail) (hv : s.versionUpperBound ≤ s'.versionUpperBound) :
    VersionsGrow s s' where
  combiner_isSome n := by
    obtain rfl | hn := eq_or_ne n nodeId
    · rw [hc', Function.update_same, hc]; rfl
    · rw [hc', Function.update_noteq hn]
  localVersions_isSome n := by
    obtain rfl | hn := eq_or_ne n nodeId
    · rw [hlv, hlv']; rfl
    · rw [hl n hn]
  globalTail_mono := hgt
  versionUpperBound_mono := hv
  localVersions_mono n l l' h h' := by
    obtain rfl | hn := eq_or_ne n nodeId
    · rw [hlv] at h; rw [hlv'] at h'; cases h; cases h'; exact hle
    · rw [hl n hn, h] at h'; cases h'; exact le_rfl
  currentLocalVersion_mono n := by
    obtain rfl | hn := eq_or_ne n nodeId
    · rw [State.currentLocalVersion_eq hc hlv,
        State.currentLocalVersion_eq (by rw [hc', Function.update_same]) hlv']
      exact hver
    · simp only [State.currentLocalVersion, hc', Function.update_noteq hn, hl n hn, le_refl]

theorem VersionsGrow.refl (s : State S U R T) : VersionsGrow s s :=
  .of_eq rfl rfl rfl rfl

theorem VersionsGrow.trans {s'' : State S U R T} (h : VersionsGrow s s') (h' : VersionsGrow s' s'') :
    VersionsGrow s s'' where
  combiner_isSome n := (h'.combiner_isSome n).trans (h.combiner_isSome n)
  localVersions_isSome n := (h'.localVersions_isSome n).trans (h.localVersions_isSome n)
  globalTail_mono := h.globalTail_mono.trans h'.globalTail_mono
  versionUpperBound_mono := h.versionUpperBound_mono.trans h'.versionUpperBound_mono
  localVersions_mono n lv lv'' hl hl'' := by
    obtain ⟨lv', hl'⟩ := Option.isSome_iff_exists.mp
      ((h.localVersions_isSome n).trans (Option.isSome_iff_exists.mpr ⟨lv, hl⟩))
    exact (h.localVersions_mono n lv lv' hl hl').trans (h'.localVersions_mono n lv' lv'' hl' hl'')
  currentLocalVersion_mono n := (h.currentLocalVersion_mono n).trans (h'.currentLocalVersion_mono n)

end Grow

omit [NRState S U R T] in
/-- A combiner's local version is at most its current one. -/
theorem CombinerWf.le_version {nodeId lv : ℕ} {c : CombinerState} (hwf : CombinerWf s nodeId lv c) :
    lv ≤ c.version lv := by
  cases c <;> simp only [CombinerWf, CombinerState.version] at hwf ⊢ <;> omega

/-- **One step moves every version up.** Only `exec_finish` changes a local version, to the
tail its replay reached, which the invariant puts above the old one. -/
theorem versionsGrow_of_next (h : Inv s) : ∀ {st : Step U R}, next s st = some s' → VersionsGrow s s'
  | .readonlyStart _ _, hs => by
    obtain ⟨_, rfl⟩ := readonlyStart_eq_some hs; exact .of_eq rfl rfl rfl rfl
  | .readonlyReadCtail _, hs => by
    obtain ⟨_, _, rfl⟩ := readonlyReadCtail_eq_some hs; exact .of_eq rfl rfl rfl rfl
  | .readonlyReadyToRead _ _, hs => by
    obtain ⟨_, _, _, _, _, _, rfl⟩ := readonlyReadyToRead_eq_some hs; exact .of_eq rfl rfl rfl rfl
  | .readonlyApply _, hs => by
    obtain ⟨_, _, _, _, _, _, _, rfl⟩ := readonlyApply_eq_some hs; exact .of_eq rfl rfl rfl rfl
  | .readonlyFinish _, hs => by
    obtain ⟨_, rfl⟩ := readonlyFinish_eq_some hs; exact .of_eq rfl rfl rfl rfl
  | .updateStart _ _, hs => by
    obtain ⟨_, rfl⟩ := updateStart_eq_some hs; exact .of_eq rfl rfl rfl rfl
  | .updateDone _, hs => by
    obtain ⟨_, _, _, _, rfl⟩ := updateDone_eq_some hs; exact .of_eq rfl rfl rfl rfl
  | .updateFinish _, hs => by
    obtain ⟨_, rfl⟩ := updateFinish_eq_some hs; exact .of_eq rfl rfl rfl rfl
  | .updatePlaceOpsInLogOne n _, hs => by
    obtain ⟨_, _, hc, _, rfl⟩ := updatePlaceOpsInLogOne_eq_some hs
    obtain ⟨lv, hlv, -⟩ := h.node n _ hc
    exact .of_node hc rfl hlv hlv (fun _ _ => rfl) le_rfl le_rfl (Nat.le_succ _) le_rfl
  | .execTrivialStart n, hs => by
    obtain ⟨hc, rfl⟩ := execTrivialStart_eq_some hs
    obtain ⟨lv, hlv, -⟩ := h.node n _ hc
    exact .of_node hc rfl hlv hlv (fun _ _ => rfl) le_rfl le_rfl le_rfl le_rfl
  | .execLoadLocalVersion n, hs => by
    obtain ⟨_, _, hc, hlv, rfl⟩ := execLoadLocalVersion_eq_some hs
    exact .of_node hc rfl hlv hlv (fun _ _ => rfl) le_rfl le_rfl le_rfl le_rfl
  | .execLoadGlobalHead n, hs => by
    obtain ⟨_, _, hc, rfl⟩ := execLoadGlobalHead_eq_some hs
    obtain ⟨lv, hlv, -⟩ := h.node n _ hc
    exact .of_node hc rfl hlv hlv (fun _ _ => rfl) le_rfl le_rfl le_rfl le_rfl
  | .execDispatchLocal n, hs => by
    obtain ⟨_, _, _, _, _, _, _, hc, -, -, -, -, -, rfl⟩ := execDispatchLocal_eq_some hs
    obtain ⟨lv, hlv, -⟩ := h.node n _ hc
    exact .of_node hc rfl hlv hlv (fun _ _ => rfl) le_rfl (Nat.le_succ _) le_rfl le_rfl
  | .execDispatchRemote n, hs => by
    obtain ⟨_, _, _, _, _, _, hc, -, -, -, -, rfl⟩ := execDispatchRemote_eq_some hs
    obtain ⟨lv, hlv, -⟩ := h.node n _ hc
    exact .of_node hc rfl hlv hlv (fun _ _ => rfl) le_rfl (Nat.le_succ _) le_rfl le_rfl
  | .execUpdateVersionUpperBound n, hs => by
    obtain ⟨_, _, gt, hc, rfl⟩ := execUpdateVersionUpperBound_eq_some hs
    obtain ⟨lv, hlv, -⟩ := h.node n _ hc
    refine .of_node hc rfl hlv hlv (fun _ _ => rfl) le_rfl le_rfl le_rfl ?_
    dsimp only
    split_ifs <;> omega
  | .execFinish n, hs => by
    obtain ⟨_, gt, lv, hc, hlv, rfl⟩ := execFinish_eq_some hs
    obtain ⟨lv', hlv', -, -, -, hle, -⟩ := h.node n _ hc
    obtain rfl : lv' = lv := Option.some.inj (hlv'.symm.trans hlv)
    exact .of_node hc rfl hlv (Function.update_same _ _ _)
      (fun _ hn => Function.update_noteq hn _ _) hle le_rfl le_rfl le_rfl

/-- A node has a local version exactly when it has a combiner
(`combiner_local_versions_domains`). -/
theorem Reachable.localVersions_isSome (h : Reachable S s) (n : ℕ) :
    (s.localVersions n).isSome = (s.combiner n).isSome := by
  induction h with
  | init N => simp only [UnboundedLog.init]; split_ifs <;> rfl
  | next _ hr hs ih =>
    have g := versionsGrow_of_next hr.inv hs
    rw [g.localVersions_isSome, g.combiner_isSome, ih]

/-- The versions of a node with a combiner, in order. -/
theorem Inv.localVersion_le (h : Inv s) {n lv : ℕ} {c : CombinerState}
    (hc : s.combiner n = some c) (hlv : s.localVersions n = some lv) :
    lv ≤ s.currentLocalVersion n ∧ s.currentLocalVersion n ≤ s.globalTail ∧
      lv ≤ s.versionUpperBound := by
  obtain ⟨lv', hlv', hle, -, hwf⟩ := h.node n c hc
  obtain rfl : lv' = lv := Option.some.inj (hlv'.symm.trans hlv)
  rw [State.currentLocalVersion_eq hc hlv]
  exact ⟨hwf.le_version, h.version_le hle hwf, hle⟩

/-- **Versions are ordered and never decrease.** In every reachable state, every node's local
version is at most its current local version, which is at most the global tail, and at most the
version upper bound, which is at most the global tail; and no step lowers the global tail, the
version upper bound, a local version or a current local version. -/
theorem versions_ordered_monotone (h : Reachable S s) :
    s.versionUpperBound ≤ s.globalTail ∧
      (∀ n lv, s.localVersions n = some lv →
        lv ≤ s.currentLocalVersion n ∧ s.currentLocalVersion n ≤ s.globalTail ∧
          lv ≤ s.versionUpperBound) ∧
      ∀ st s', next s st = some s' →
        s.globalTail ≤ s'.globalTail ∧ s.versionUpperBound ≤ s'.versionUpperBound ∧
          (∀ n lv lv', s.localVersions n = some lv → s'.localVersions n = some lv' → lv ≤ lv') ∧
          ∀ n, s.currentLocalVersion n ≤ s'.currentLocalVersion n := by
  have hinv := h.inv
  refine ⟨hinv.versionUpperBound_le, fun n lv hlv => ?_, fun st s' hs => ?_⟩
  · obtain ⟨c, hc⟩ := Option.isSome_iff_exists.mp
      ((h.localVersions_isSome n).symm.trans (Option.isSome_iff_exists.mpr ⟨lv, hlv⟩))
    exact hinv.localVersion_le hc hlv
  · have g := versionsGrow_of_next hinv hs
    exact ⟨g.globalTail_mono, g.versionUpperBound_mono, g.localVersions_mono,
      g.currentLocalVersion_mono⟩

/-- A counter whose node `0` has published local version `1` after one update. -/
theorem versions_ordered_monotone_counter :
    ∃ s : State ℕ Unit Unit ℕ, Reachable ℕ s ∧ s.localVersions 0 = some 1 ∧
      s.versionUpperBound ≤ s.globalTail ∧
      (∀ n lv, s.localVersions n = some lv →
        lv ≤ s.currentLocalVersion n ∧ s.currentLocalVersion n ≤ s.globalTail ∧
          lv ≤ s.versionUpperBound) ∧
      ∀ st s', next s st = some s' →
        s.globalTail ≤ s'.globalTail ∧ s.versionUpperBound ≤ s'.versionUpperBound ∧
          (∀ n lv lv', s.localVersions n = some lv → s'.localVersions n = some lv' → lv ≤ lv') ∧
          ∀ n, s.currentLocalVersion n ≤ s'.currentLocalVersion n := by
  have hr := (Reachable.init 1).run (show run (init 1 : State ℕ Unit Unit ℕ)
    [.updateStart () 0, .execTrivialStart 0, .updatePlaceOpsInLogOne 0 0,
      .execLoadLocalVersion 0, .execLoadGlobalHead 0, .execDispatchLocal 0,
      .execUpdateVersionUpperBound 0, .execFinish 0] = some _ from rfl)
  exact ⟨_, hr, rfl, versions_ordered_monotone hr⟩

/-! ## Requests and the version upper bound -/

/-- The source's `inv_local_updates_wf`: the entry of a placed, applied or done request is in the
log, below the version upper bound. -/
def LocalUpdatesWf (s : State S U R T) : UpdateState U T → Prop
  | .init _ => True
  | .placed _ idx | .applied _ idx | .done _ idx => (s.log idx).isSome ∧ idx < s.versionUpperBound

/-- The source's `inv_local_updates`: every request is well formed. -/
def InvLocalUpdates (s : State S U R T) : Prop :=
  ∀ rid u, s.localUpdates rid = some u → LocalUpdatesWf s u

/-- Node `0` places request `0` at index `0`, then applies it; in both states the version upper
bound is still `0`, so neither satisfies `inv_local_updates`. -/
theorem placed_above_versionUpperBound :
    (∃ s : State ℕ Unit Unit ℕ, Reachable ℕ s ∧ s.localUpdates 0 = some (.placed () 0) ∧
      s.versionUpperBound = 0 ∧ ¬ InvLocalUpdates s) ∧
    ∃ s : State ℕ Unit Unit ℕ, Reachable ℕ s ∧ s.localUpdates 0 = some (.applied 0 0) ∧
      s.versionUpperBound = 0 ∧ ¬ InvLocalUpdates s :=
  ⟨⟨_, (Reachable.init 1).run (show run (init 1 : State ℕ Unit Unit ℕ)
      [.updateStart () 0, .execTrivialStart 0, .updatePlaceOpsInLogOne 0 0] = some _ from rfl),
      rfl, rfl, fun h => absurd (h 0 _ rfl).2 (Nat.lt_irrefl 0)⟩,
    ⟨_, (Reachable.init 1).run (show run (init 1 : State ℕ Unit Unit ℕ)
      [.updateStart () 0, .execTrivialStart 0, .updatePlaceOpsInLogOne 0 0,
        .execLoadLocalVersion 0, .execLoadGlobalHead 0, .execDispatchLocal 0] = some _ from rfl),
      rfl, rfl, fun h => absurd (h 0 _ rfl).2 (Nat.lt_irrefl 0)⟩⟩

end NodeReplication.UnboundedLog
