import NodeReplication.UnboundedLog.Versions
import NodeReplication.UnboundedLog.Linearizability

/-!
# Log entries and the requests that own them

The log only grows, one entry at the global tail at a time, and an update request holds at most
one of its indices. Three invariants of every reachable state tie the requests to the replay:

* `log_next`, `log_prefix_run`, **`run_log_append_only`**: a step leaves the log alone or appends one entry at the
  global tail, placed by a node that has a combiner; along any run the global tail never
  decreases and no entry below it changes.
* `UpdateState.logIdx`, `IdxUnique`, `Reachable.idxUnique`, **`entry_answers_one_request`**: the
  index a request holds is an entry of the log, and no two update requests hold the same one.
* `LogNodesLive`, `PlacedAhead`, **`placed_at_or_after_replay`**: every entry's node has a
  combiner, and a placed request lies at or after the current local version of the node that
  placed it: a replay passes one of the node's own entries only by dispatching its request.
-/

namespace NodeReplication.UnboundedLog

variable {S U R T : Type} [NRState S U R T]

/-! ## The log only grows -/

section Log

variable {s s' : State S U R T}

/-- **What a step does to the log.** It leaves the log and the global tail as they are, or
appends one entry, of a node with a combiner, at the global tail. -/
theorem log_next : ∀ {st : Step U R}, next s st = some s' →
    (s'.log = s.log ∧ s'.globalTail = s.globalTail) ∨
      ∃ n op, (s.combiner n).isSome ∧ s'.globalTail = s.globalTail + 1 ∧
        s'.log = Function.update s.log s.globalTail (some ⟨op, n⟩)
  | .readonlyStart _ _, hs => by
    obtain ⟨_, rfl⟩ := readonlyStart_eq_some hs; exact .inl ⟨rfl, rfl⟩
  | .readonlyReadCtail _, hs => by
    obtain ⟨_, _, rfl⟩ := readonlyReadCtail_eq_some hs; exact .inl ⟨rfl, rfl⟩
  | .readonlyReadyToRead _ _, hs => by
    obtain ⟨_, _, _, _, _, _, rfl⟩ := readonlyReadyToRead_eq_some hs; exact .inl ⟨rfl, rfl⟩
  | .readonlyApply _, hs => by
    obtain ⟨_, _, _, _, _, _, _, rfl⟩ := readonlyApply_eq_some hs; exact .inl ⟨rfl, rfl⟩
  | .readonlyFinish _, hs => by
    obtain ⟨_, rfl⟩ := readonlyFinish_eq_some hs; exact .inl ⟨rfl, rfl⟩
  | .updateStart _ _, hs => by
    obtain ⟨_, rfl⟩ := updateStart_eq_some hs; exact .inl ⟨rfl, rfl⟩
  | .updateDone _, hs => by
    obtain ⟨_, _, _, _, rfl⟩ := updateDone_eq_some hs; exact .inl ⟨rfl, rfl⟩
  | .updateFinish _, hs => by
    obtain ⟨_, rfl⟩ := updateFinish_eq_some hs; exact .inl ⟨rfl, rfl⟩
  | .updatePlaceOpsInLogOne n _, hs => by
    obtain ⟨_, op, hc, _, rfl⟩ := updatePlaceOpsInLogOne_eq_some hs
    exact .inr ⟨n, op, by rw [hc]; rfl, rfl, rfl⟩
  | .execTrivialStart _, hs => by
    obtain ⟨_, rfl⟩ := execTrivialStart_eq_some hs; exact .inl ⟨rfl, rfl⟩
  | .execLoadLocalVersion _, hs => by
    obtain ⟨_, _, _, _, rfl⟩ := execLoadLocalVersion_eq_some hs; exact .inl ⟨rfl, rfl⟩
  | .execLoadGlobalHead _, hs => by
    obtain ⟨_, _, _, rfl⟩ := execLoadGlobalHead_eq_some hs; exact .inl ⟨rfl, rfl⟩
  | .execDispatchLocal _, hs => by
    obtain ⟨_, _, _, _, _, _, _, _, _, _, _, _, _, rfl⟩ := execDispatchLocal_eq_some hs
    exact .inl ⟨rfl, rfl⟩
  | .execDispatchRemote _, hs => by
    obtain ⟨_, _, _, _, _, _, _, _, _, _, _, rfl⟩ := execDispatchRemote_eq_some hs
    exact .inl ⟨rfl, rfl⟩
  | .execUpdateVersionUpperBound _, hs => by
    obtain ⟨_, _, _, _, rfl⟩ := execUpdateVersionUpperBound_eq_some hs; exact .inl ⟨rfl, rfl⟩
  | .execFinish _, hs => by
    obtain ⟨_, _, _, _, _, rfl⟩ := execFinish_eq_some hs; exact .inl ⟨rfl, rfl⟩

/-- One step never lowers the global tail and keeps every entry below it. -/
theorem log_prefix_next {st : Step U R} (hs : next s st = some s') :
    s.globalTail ≤ s'.globalTail ∧ ∀ i, i < s.globalTail → s'.log i = s.log i := by
  rcases log_next hs with ⟨hl, hg⟩ | ⟨n, op, -, hg, hl⟩
  · exact ⟨hg.ge, fun i _ => by rw [hl]⟩
  · exact ⟨by omega, fun i hi => by rw [hl, Function.update_noteq (Nat.ne_of_lt hi)]⟩

end Log

/-- Along any run the global tail never decreases and every entry below the global tail the
run started from stays as it was. -/
theorem log_prefix_run : ∀ (sts : List (Step U R)) {s s' : State S U R T},
    run s sts = some s' → s.globalTail ≤ s'.globalTail ∧ ∀ i, i < s.globalTail → s'.log i = s.log i
  | [], _, _, hr => by cases hr; exact ⟨le_rfl, fun _ _ => rfl⟩
  | _ :: sts, _, _, hr => by
    obtain ⟨s₁, h₁, hr⟩ := Option.bind_eq_some.mp hr
    obtain ⟨hg₁, hl₁⟩ := log_prefix_next h₁
    obtain ⟨hg, hl⟩ := log_prefix_run sts hr
    exact ⟨hg₁.trans hg, fun i hi => (hl i (by omega)).trans (hl₁ i hi)⟩

/-- **The log is append-only.** A step leaves the log and the global tail alone or appends one
entry, of a node with a combiner, at the global tail; along any run the global tail never
decreases and every entry below the global tail the run started from stays as it was. -/
theorem run_log_append_only :
    (∀ (s s' : State S U R T) (st : Step U R), next s st = some s' →
      (s'.log = s.log ∧ s'.globalTail = s.globalTail) ∨
        ∃ n op, (s.combiner n).isSome ∧ s'.globalTail = s.globalTail + 1 ∧
          s'.log = Function.update s.log s.globalTail (some ⟨op, n⟩)) ∧
    ∀ (sts : List (Step U R)) (s s' : State S U R T), run s sts = some s' →
      s.globalTail ≤ s'.globalTail ∧ ∀ i, i < s.globalTail → s'.log i = s.log i :=
  ⟨fun _ _ _ => log_next, fun sts _ _ => log_prefix_run sts⟩

/-- Node `0` of a counter places an update at index `0`, then a second one: the first placement
appends at the global tail, and the second leaves the first entry as it was. -/
theorem run_log_append_only_counter :
    ∃ s s' : State ℕ Unit Unit ℕ,
      run (init 1) [.updateStart () 0, .execTrivialStart 0] = some s ∧
      next s (.updatePlaceOpsInLogOne 0 0) = some s' ∧
      ((s'.log = s.log ∧ s'.globalTail = s.globalTail) ∨
        ∃ n op, (s.combiner n).isSome ∧ s'.globalTail = s.globalTail + 1 ∧
          s'.log = Function.update s.log s.globalTail (some ⟨op, n⟩)) ∧
      ∃ s'', run s' [.updateStart () 1, .updatePlaceOpsInLogOne 0 1] = some s'' ∧
        s'.globalTail ≤ s''.globalTail ∧ ∀ i, i < s'.globalTail → s''.log i = s'.log i :=
  ⟨_, _, rfl, rfl, run_log_append_only.1 _ _ (.updatePlaceOpsInLogOne 0 0) rfl, _, rfl,
    run_log_append_only.2 [.updateStart () 1, .updatePlaceOpsInLogOne 0 1] _ _ rfl⟩

/-! ## Every entry's node has a combiner -/

section Live

variable {s s' : State S U R T}

/-- Every log entry was placed by a node that has a combiner. -/
def LogNodesLive (s : State S U R T) : Prop :=
  ∀ i e, s.log i = some e → (s.combiner e.nodeId).isSome

theorem LogNodesLive.next (h : LogNodesLive s) (hi : Inv s) {st : Step U R}
    (hs : next s st = some s') : LogNodesLive s' := by
  have g := versionsGrow_of_next hi hs
  intro i e he
  rw [g.combiner_isSome]
  rcases log_next hs with ⟨hl, -⟩ | ⟨n, op, hn, -, hl⟩
  · rw [hl] at he
    exact h i e he
  · rw [hl, Function.update_apply] at he
    split_ifs at he
    · cases he
      exact hn
    · exact h i e he

theorem Reachable.logNodesLive (h : Reachable S s) : LogNodesLive s := by
  induction h with
  | init n => intro i e he; cases he
  | next _ hr hs ih => exact ih.next hr.inv hs

end Live

/-! ## No two requests hold one index -/

/-- The log index an update request holds once it is placed. -/
def UpdateState.logIdx : UpdateState U T → Option ℕ
  | .init _ => none
  | .placed _ idx | .applied _ idx | .done _ idx => some idx

/-- No two update requests hold the same log index. -/
def IdxUnique (updates : ℕ → Option (UpdateState U T)) : Prop :=
  ∀ rid rid' u u' i, updates rid = some u → updates rid' = some u' → u.logIdx = some i →
    u'.logIdx = some i → rid = rid'

section Unique

variable {s s' : State S U R T}

omit [NRState S U R T] in
/-- Setting one request to a state whose index no other request holds keeps indices unique. -/
theorem IdxUnique.update {updates : ℕ → Option (UpdateState U T)} (h : IdxUnique updates)
    {rid : ℕ} {v : Option (UpdateState U T)}
    (hv : ∀ x i, v = some x → x.logIdx = some i →
      ∀ r y, r ≠ rid → updates r = some y → y.logIdx ≠ some i) :
    IdxUnique (Function.update updates rid v) := by
  intro r r' u u' i hr hr' hi hi'
  rw [Function.update_apply] at hr hr'
  split_ifs at hr hr' with h1 h2 h2
  · exact h1.trans h2.symm
  · exact absurd hi' (hv u i hr hi r' u' h2 hr')
  · exact absurd hi (hv u' i hr' hi' r u h1 hr)
  · exact h r r' u u' i hr hr' hi hi'

/-- A request's log index is an entry below the global tail. -/
theorem Inv.logIdx_lt (h : Inv s) {rid i : ℕ} {u : UpdateState U T}
    (hu : s.localUpdates rid = some u) (hi : u.logIdx = some i) : i < s.globalTail := by
  have hinv := h.update rid u hu
  cases u <;> simp only [UpdateState.logIdx, Option.some.injEq, reduceCtorEq] at hi <;> subst hi
  · exact h.lt_globalTail hinv.choose_spec
  · exact h.lt_globalTail hinv.choose_spec.1
  · exact h.lt_globalTail hinv.2.choose_spec.1

/-- The request a local dispatch applies is the one placed at the replayed entry. -/
theorem Inv.dispatched_placed (h : Inv s) {n lversion idx gt : ℕ} {q : List ℕ}
    {e : LogEntry U} (hc : s.combiner n = some (.loop q lversion idx gt)) (hlt : lversion < gt)
    (he : s.log lversion = some e) (hn : e.nodeId = n) :
    s.localUpdates (q.getD idx 0) = some (.placed e.op lversion) := by
  obtain ⟨_, -, -, -, -, -, -, hq, -, -⟩ := h.node n _ hc
  obtain ⟨rid, op, hrid, hu, -⟩ := hq.local hlt he hn
  obtain ⟨n', hn'⟩ := h.update rid _ hu
  obtain rfl : e = ⟨op, n'⟩ := Option.some.inj (he.symm.trans hn')
  rw [List.getD_eq_getElem?_getD, hrid, Option.getD_some]
  exact hu

/-- One step keeps indices unique: `update_place_ops_in_log_one` hands out the global tail,
which no request holds yet, and every other step keeps a request's index or drops it. -/
theorem IdxUnique.next (h : IdxUnique s.localUpdates) (hi : Inv s) :
    ∀ {st : Step U R}, next s st = some s' → IdxUnique s'.localUpdates
  | .readonlyStart _ _, hs => by obtain ⟨_, rfl⟩ := readonlyStart_eq_some hs; exact h
  | .readonlyReadCtail _, hs => by obtain ⟨_, _, rfl⟩ := readonlyReadCtail_eq_some hs; exact h
  | .readonlyReadyToRead _ _, hs => by
    obtain ⟨_, _, _, _, _, _, rfl⟩ := readonlyReadyToRead_eq_some hs; exact h
  | .readonlyApply _, hs => by
    obtain ⟨_, _, _, _, _, _, _, rfl⟩ := readonlyApply_eq_some hs; exact h
  | .readonlyFinish _, hs => by obtain ⟨_, rfl⟩ := readonlyFinish_eq_some hs; exact h
  | .updateStart _ _, hs => by
    obtain ⟨_, rfl⟩ := updateStart_eq_some hs
    exact h.update fun x i hx hxi => by cases hx; cases hxi
  | .updateDone _, hs => by
    obtain ⟨_, _, hu, -, rfl⟩ := updateDone_eq_some hs
    exact h.update fun x i hx hxi r y hr hy hyi => by
      cases hx
      exact hr (h r _ y _ i hy hu hyi hxi)
  | .updateFinish _, hs => by
    obtain ⟨_, rfl⟩ := updateFinish_eq_some hs
    exact h.update fun x i hx => by cases hx
  | .updatePlaceOpsInLogOne _ _, hs => by
    obtain ⟨_, _, _, _, rfl⟩ := updatePlaceOpsInLogOne_eq_some hs
    exact h.update fun x i hx hxi r y _ hy hyi => by
      cases hx
      cases hxi
      exact absurd (hi.logIdx_lt hy hyi) (lt_irrefl _)
  | .execTrivialStart _, hs => by obtain ⟨_, rfl⟩ := execTrivialStart_eq_some hs; exact h
  | .execLoadLocalVersion _, hs => by
    obtain ⟨_, _, _, _, rfl⟩ := execLoadLocalVersion_eq_some hs; exact h
  | .execLoadGlobalHead _, hs => by
    obtain ⟨_, _, _, rfl⟩ := execLoadGlobalHead_eq_some hs; exact h
  | .execDispatchLocal _, hs => by
    obtain ⟨_, _, _, _, _, _, _, hc, -, -, he, hlt, hn, rfl⟩ := execDispatchLocal_eq_some hs
    have hp := hi.dispatched_placed hc hlt he hn
    exact h.update fun x i hx hxi r y hr hy hyi => by
      cases hx
      exact hr (h r _ y _ i hy hp hyi hxi)
  | .execDispatchRemote _, hs => by
    obtain ⟨_, _, _, _, _, _, _, _, _, _, _, rfl⟩ := execDispatchRemote_eq_some hs; exact h
  | .execUpdateVersionUpperBound _, hs => by
    obtain ⟨_, _, _, _, rfl⟩ := execUpdateVersionUpperBound_eq_some hs; exact h
  | .execFinish _, hs => by obtain ⟨_, _, _, _, _, rfl⟩ := execFinish_eq_some hs; exact h

/-- No two update requests hold the same log index in any reachable state. -/
theorem Reachable.idxUnique (h : Reachable S s) : IdxUnique s.localUpdates := by
  induction h with
  | init n => intro _ _ _ _ _ hr; cases hr
  | next _ hr hs ih => exact ih.next hr.inv hs

/-- **An entry answers at most one request.** In any reachable state, the log index an update
request holds is an entry of the log, below the global tail, and no other request holds it: no
entry is applied for, or answered to, two requests. -/
theorem entry_answers_one_request (h : Reachable S s) {rid i : ℕ} {u : UpdateState U T}
    (hu : s.localUpdates rid = some u) (hi : u.logIdx = some i) :
    i < s.globalTail ∧ (s.log i).isSome ∧
      ∀ rid' u', s.localUpdates rid' = some u' → u'.logIdx = some i → rid' = rid := by
  have hlt := h.inv.logIdx_lt hu hi
  obtain ⟨e, he⟩ := h.inv.log_some i hlt
  exact ⟨hlt, by rw [he]; rfl, fun rid' u' hu' hi' => h.idxUnique rid' rid u' u i hu' hu hi' hi⟩

end Unique

/-- Node `0` of a counter places requests `0` and `1`, at indices `0` and `1`. -/
theorem entry_answers_one_request_counter :
    ∃ s : State ℕ Unit Unit ℕ, Reachable ℕ s ∧ s.localUpdates 0 = some (.placed () 0) ∧
      s.localUpdates 1 = some (.placed () 1) ∧
      0 < s.globalTail ∧ (s.log 0).isSome ∧
        ∀ rid' u', s.localUpdates rid' = some u' → u'.logIdx = some 0 → rid' = 0 := by
  have hr := (Reachable.init 1).run (show run (init 1 : State ℕ Unit Unit ℕ)
    [.updateStart () 0, .updateStart () 1, .execTrivialStart 0, .updatePlaceOpsInLogOne 0 0,
      .updatePlaceOpsInLogOne 0 1] = some _ from rfl)
  exact ⟨_, hr, rfl, rfl, entry_answers_one_request hr rfl rfl⟩

/-! ## Placed requests lie ahead of the replay -/

/-- A placed request lies at or after the version of the phase of the node that placed its
entry. -/
def PlacedAhead (s : State S U R T) : Prop :=
  ∀ rid op i n c lv, s.localUpdates rid = some (.placed op i) → s.log i = some ⟨op, n⟩ →
    s.combiner n = some c → s.localVersions n = some lv → c.version lv ≤ i

section Ahead

variable {s s' : State S U R T}

omit [NRState S U R T] in
/-- A step that keeps the log, the phases and local versions, and places no request. -/
theorem PlacedAhead.of_requests (h : PlacedAhead s) (hlog : s'.log = s.log)
    (hc : s'.combiner = s.combiner) (hl : s'.localVersions = s.localVersions)
    (hu : ∀ rid op i, s'.localUpdates rid = some (.placed op i) →
      s.localUpdates rid = some (.placed op i)) :
    PlacedAhead s' := fun rid op i n c lv hr he hcn hlv => by
  rw [hlog] at he
  rw [hc] at hcn
  rw [hl] at hlv
  exact h rid op i n c lv (hu rid op i hr) he hcn hlv

omit [NRState S U R T] in
/-- A step of node `nodeId` to a phase at the version it had, keeping the log and the requests. -/
theorem PlacedAhead.of_sameVersion (h : PlacedAhead s) {nodeId lv lv' : ℕ} {c c' : CombinerState}
    (hc : s.combiner nodeId = some c) (hlv : s.localVersions nodeId = some lv)
    (hc' : s'.combiner = Function.update s.combiner nodeId (some c'))
    (hlv' : s'.localVersions nodeId = some lv')
    (hl : ∀ n, n ≠ nodeId → s'.localVersions n = s.localVersions n)
    (hver : c'.version lv' = c.version lv) (hu : s'.localUpdates = s.localUpdates)
    (hlog : s'.log = s.log) : PlacedAhead s' := by
  intro rid op i n c₁ lv₁ hr he hc₁ hlv₁
  rw [hu] at hr
  rw [hlog] at he
  rw [hc', Function.update_apply] at hc₁
  split_ifs at hc₁ with hn
  · subst hn
    cases hc₁
    obtain rfl := Option.some.inj (hlv₁.symm.trans hlv')
    rw [hver]
    exact h rid op i _ c lv hr he hc hlv
  · rw [hl n hn] at hlv₁
    exact h rid op i n c₁ lv₁ hr he hc₁ hlv₁

omit [NRState S U R T] in
theorem placed_of_update {f : ℕ → Option (UpdateState U T)} {rid r i : ℕ} {op : U}
    {v : Option (UpdateState U T)} (hv : ∀ op' i', v ≠ some (.placed op' i'))
    (hr : Function.update f rid v r = some (.placed op i)) : f r = some (.placed op i) := by
  rw [Function.update_apply] at hr
  split_ifs at hr
  · exact absurd hr (hv op i)
  · exact hr

/-- One step keeps placed requests ahead of the replay. A new request is placed at the global
tail, beyond every replay; a remote dispatch passes an entry of another node; a local dispatch
passes the entry of the request it applies, which is the only request at that index. -/
theorem PlacedAhead.next (h : PlacedAhead s) (hi : Inv s) (hu : IdxUnique s.localUpdates) :
    ∀ {st : Step U R}, next s st = some s' → PlacedAhead s'
  | .readonlyStart _ _, hs => by obtain ⟨_, rfl⟩ := readonlyStart_eq_some hs; exact h
  | .readonlyReadCtail _, hs => by obtain ⟨_, _, rfl⟩ := readonlyReadCtail_eq_some hs; exact h
  | .readonlyReadyToRead _ _, hs => by
    obtain ⟨_, _, _, _, _, _, rfl⟩ := readonlyReadyToRead_eq_some hs; exact h
  | .readonlyApply _, hs => by
    obtain ⟨_, _, _, _, _, _, _, rfl⟩ := readonlyApply_eq_some hs; exact h
  | .readonlyFinish _, hs => by obtain ⟨_, rfl⟩ := readonlyFinish_eq_some hs; exact h
  | .updateStart _ _, hs => by
    obtain ⟨_, rfl⟩ := updateStart_eq_some hs
    exact h.of_requests rfl rfl rfl fun _ _ _ hr => placed_of_update (by simp) hr
  | .updateDone _, hs => by
    obtain ⟨_, _, _, _, rfl⟩ := updateDone_eq_some hs
    exact h.of_requests rfl rfl rfl fun _ _ _ hr => placed_of_update (by simp) hr
  | .updateFinish _, hs => by
    obtain ⟨_, rfl⟩ := updateFinish_eq_some hs
    exact h.of_requests rfl rfl rfl fun _ _ _ hr => placed_of_update (by simp) hr
  | .updatePlaceOpsInLogOne n₀ _, hs => by
    obtain ⟨q, op₀, hc₀, -, rfl⟩ := updatePlaceOpsInLogOne_eq_some hs
    obtain ⟨lv₀, hlv₀, hle₀, -⟩ := hi.node n₀ _ hc₀
    intro rid op i n c lv hr he hc hlv
    dsimp only at hr he hc hlv
    -- node `n₀` goes from `placed q` to `placed (q ++ [rid])`, at the same version
    obtain ⟨c₁, hc₁, hver⟩ : ∃ c₁, s.combiner n = some c₁ ∧ c.version lv = c₁.version lv := by
      rw [Function.update_apply] at hc
      split_ifs at hc with hn
      · subst hn; cases hc; exact ⟨_, hc₀, rfl⟩
      · exact ⟨c, hc, rfl⟩
    rw [hver]
    rw [Function.update_apply] at hr
    split_ifs at hr
    · -- the new request sits at the old global tail, which no replay has passed
      cases hr
      rw [Function.update_same] at he
      cases he
      rw [hc₀] at hc₁
      cases hc₁
      obtain rfl := Option.some.inj (hlv.symm.trans hlv₀)
      exact hle₀.trans hi.versionUpperBound_le
    · rw [Function.update_noteq (Nat.ne_of_lt (hi.logIdx_lt hr rfl))] at he
      exact h rid op i n c₁ lv hr he hc₁ hlv
  | .execTrivialStart n₀, hs => by
    obtain ⟨hc, rfl⟩ := execTrivialStart_eq_some hs
    obtain ⟨lv, hlv, -⟩ := hi.node n₀ _ hc
    exact h.of_sameVersion hc hlv rfl hlv (fun _ _ => rfl) rfl rfl rfl
  | .execLoadLocalVersion _, hs => by
    obtain ⟨_, _, hc, hlv, rfl⟩ := execLoadLocalVersion_eq_some hs
    exact h.of_sameVersion hc hlv rfl hlv (fun _ _ => rfl) rfl rfl rfl
  | .execLoadGlobalHead n₀, hs => by
    obtain ⟨_, _, hc, rfl⟩ := execLoadGlobalHead_eq_some hs
    obtain ⟨lv, hlv, -⟩ := hi.node n₀ _ hc
    exact h.of_sameVersion hc hlv rfl hlv (fun _ _ => rfl) rfl rfl rfl
  | .execUpdateVersionUpperBound n₀, hs => by
    obtain ⟨_, _, _, hc, rfl⟩ := execUpdateVersionUpperBound_eq_some hs
    obtain ⟨lv, hlv, -⟩ := hi.node n₀ _ hc
    exact h.of_sameVersion hc hlv rfl hlv (fun _ _ => rfl) rfl rfl rfl
  | .execFinish _, hs => by
    obtain ⟨_, _, _, hc, hlv, rfl⟩ := execFinish_eq_some hs
    exact h.of_sameVersion hc hlv rfl (Function.update_same _ _ _)
      (fun _ hn => Function.update_noteq hn _ _) rfl rfl rfl
  | .execDispatchRemote n₀, hs => by
    obtain ⟨q, lversion, idx, gt, _, e, hc₀, -, he₀, -, hn₀, rfl⟩ :=
      execDispatchRemote_eq_some hs
    intro rid op i n c lv hr he hc hlv
    dsimp only at hr he hc hlv
    rw [Function.update_apply] at hc
    split_ifs at hc with hn
    · -- the replay passes `lversion`, an entry of another node
      subst hn
      cases hc
      have hle := h rid op i _ _ lv hr he hc₀ hlv
      have hne : i ≠ lversion := by
        rintro rfl
        rw [he] at he₀
        cases he₀
        exact hn₀ rfl
      exact Nat.lt_of_le_of_ne hle (Ne.symm hne)
    · exact h rid op i n c lv hr he hc hlv
  | .execDispatchLocal n₀, hs => by
    obtain ⟨q, lversion, idx, gt, _, _, e, hc₀, -, -, he₀, hlt, hn₀, rfl⟩ :=
      execDispatchLocal_eq_some hs
    have hp := hi.dispatched_placed hc₀ hlt he₀ hn₀
    intro rid op i n c lv hr he hc hlv
    dsimp only at hr he hc hlv
    rw [Function.update_apply] at hr
    split_ifs at hr with hrid
    · cases hr
    rw [Function.update_apply] at hc
    split_ifs at hc with hn
    · -- the replay passes `lversion`, whose only request is the one just applied
      subst hn
      cases hc
      have hle := h rid op i _ _ lv hr he hc₀ hlv
      have hne : i ≠ lversion := by
        rintro rfl
        exact hrid (hu rid _ _ _ i hr hp rfl rfl)
      exact Nat.lt_of_le_of_ne hle (Ne.symm hne)
    · exact h rid op i n c lv hr he hc hlv

theorem Reachable.placedAhead (h : Reachable S s) : PlacedAhead s := by
  induction h with
  | init n => intro _ _ _ _ _ _ hr; cases hr
  | next _ hr hs ih => exact ih.next hr.inv hr.idxUnique hs

/-- **No replay passes a placed request of its own node.** In every reachable state, a placed
update lies at or after the current local version of the node whose log entry it owns. -/
theorem placed_at_or_after_replay (h : Reachable S s) (rid : ℕ) {i n : ℕ} {op : U}
    (hu : s.localUpdates rid = some (.placed op i)) (he : s.log i = some ⟨op, n⟩) :
    s.currentLocalVersion n ≤ i := by
  cases hc : s.combiner n with
  | none => simp [State.currentLocalVersion, hc]
  | some c =>
    obtain ⟨lv, hlv⟩ := Option.isSome_iff_exists.mp
      ((h.localVersions_isSome n).trans (by rw [hc]; rfl))
    rw [State.currentLocalVersion_eq hc hlv]
    exact h.placedAhead rid op i n c lv hu he hc hlv

end Ahead

/-- A counter whose node `0` placed request `0` and replays from version `0`. -/
theorem placed_at_or_after_replay_counter :
    ∃ s : State ℕ Unit Unit ℕ, Reachable ℕ s ∧ s.localUpdates 0 = some (.placed () 0) ∧
      s.log 0 = some ⟨(), 0⟩ ∧ s.currentLocalVersion 0 ≤ 0 := by
  have hr := (Reachable.init 1).run (show run (init 1 : State ℕ Unit Unit ℕ)
    [.updateStart () 0, .execTrivialStart 0, .updatePlaceOpsInLogOne 0 0,
      .execLoadLocalVersion 0, .execLoadGlobalHead 0] = some _ from rfl)
  exact ⟨_, hr, rfl, rfl, placed_at_or_after_replay hr 0 rfl rfl⟩

end NodeReplication.UnboundedLog
