import NodeReplication.Topology.Cores
import Mathlib.Data.List.Perm.Subperm
import Mathlib.Algebra.BigOperators.Group.List

/-!
# Interleave spreads the threads over the sockets

`Interleave` walks the usable CPUs one per core first, then the hyperthreads, and appends each to
its socket's list unless that list already holds `⌈howMany / S⌉` CPUs, stopping at `howMany`
CPUs; the answer is the socket lists one after the other.

* `socketBlocks S p P`: the socket lists after the CPUs `P`, the first `p` CPUs of each socket;
* `socketBlocks_snoc_full`, `socketBlocks_snoc_room`: one CPU more, on a full socket or not;
* `min_le_length_flatten_socketBlocks`: with equally many CPUs on every socket, the lists after
  all of them hold every CPU or are all full;
* `interleaveLoop_socketBlocks`: the loop ends with the `socketBlocks` of a prefix of its input,
  and ends before the end of its input only at `howMany` CPUs;
* **`allocate_interleave`**: if the sockets are `0, …, S - 1` and hold equally many usable CPUs,
  `Interleave` does not panic and returns `howMany` distinct CPUs of the machine, at most
  `⌈howMany / S⌉` of each socket, socket by socket.
* `interleaveLoop_cons`, `interleaveLoop_eq_some`, `allocate_interleave_eq_some`: on any machine,
  an answer of `Interleave` is the socket lists of a prefix of its walk;
* **`allocate_interleave_sound`**: on any machine, whenever `Interleave` returns, its answer has
  the shape above, with usable CPUs, without any assumption on the sockets;
* **`interleave_cores_before_hyperThreads`**: it takes a CPU of `ht2` on a socket only after every
  CPU of `ht1` on that socket.
-/

namespace NodeReplication.Topology

/-- The socket lists of `Interleave` after the CPUs `P`, when it has not stopped: the list of
socket `i` holds the first `p` CPUs of `P` on socket `i`. -/
def socketBlocks (S p : ℕ) (P : List CpuInfo) : List (List CpuInfo) :=
  (List.range S).map fun i => (P.filter fun x => x.socket = i).take p

/-- A list of list lengths after replacing one list. -/
theorem length_flatten_set {α : Type} :
    ∀ {L : List (List α)} {n : ℕ} {l : List α} (a : List α), L[n]? = some l →
      (L.set n a).flatten.length + l.length = L.flatten.length + a.length
  | [], _, _, _, h => by simp at h
  | x :: L, 0, l, a, h => by
    obtain rfl : x = l := by simpa using h
    simp only [List.set_cons_zero, List.flatten_cons, List.length_append]
    omega
  | x :: L, n + 1, l, a, h => by
    have ih := length_flatten_set a (by simpa using h)
    simp only [List.set_cons_succ, List.flatten_cons, List.length_append]
    omega

section Blocks

variable {S p : ℕ} {P : List CpuInfo}

theorem socketBlocks_nil : socketBlocks S p [] = List.replicate S [] := by
  simp [socketBlocks]

theorem getElem?_socketBlocks {i : ℕ} (hi : i < S) :
    (socketBlocks S p P)[i]? = some ((P.filter fun x => x.socket = i).take p) := by
  simp [socketBlocks, hi]

theorem mem_of_mem_block {x : CpuInfo} {i : ℕ} (hx : x ∈ (P.filter fun y => y.socket = i).take p) :
    x ∈ P ∧ x.socket = i := by
  simpa using List.take_subset _ _ hx

theorem mem_flatten_socketBlocks {x : CpuInfo} :
    x ∈ (socketBlocks S p P).flatten ↔
      x.socket < S ∧ x ∈ (P.filter fun y => y.socket = x.socket).take p := by
  simp only [socketBlocks, List.mem_flatten, List.mem_map, List.mem_range]
  constructor
  · rintro ⟨_, ⟨i, hi, rfl⟩, hx⟩
    obtain rfl := (mem_of_mem_block hx).2
    exact ⟨hi, hx⟩
  · rintro ⟨hi, hx⟩
    exact ⟨_, ⟨x.socket, hi, rfl⟩, hx⟩

theorem filter_snoc (i : ℕ) (cpu : CpuInfo) :
    ((P ++ [cpu]).filter fun x => x.socket = i) =
      (P.filter fun x => x.socket = i) ++ if cpu.socket = i then [cpu] else [] := by
  by_cases h : cpu.socket = i <;> simp [h]

/-- A CPU of a socket whose list is full changes no list. -/
theorem socketBlocks_snoc_full {cpu : CpuInfo}
    (h : p ≤ (P.filter fun x => x.socket = cpu.socket).length) :
    socketBlocks S p (P ++ [cpu]) = socketBlocks S p P := by
  refine List.map_congr_left fun i _ => ?_
  rw [filter_snoc]
  by_cases hi : cpu.socket = i
  · subst hi
    exact List.take_append_of_le_length h
  · simp [hi]

/-- A CPU of a socket whose list has room goes at the end of that list. -/
theorem socketBlocks_snoc_room {cpu : CpuInfo} (hs : cpu.socket < S)
    (h : (P.filter fun x => x.socket = cpu.socket).length < p) :
    socketBlocks S p (P ++ [cpu]) = (socketBlocks S p P).set cpu.socket
      ((P.filter fun x => x.socket = cpu.socket).take p ++ [cpu]) := by
  refine List.ext_getElem? fun i => ?_
  rw [List.getElem?_set]
  by_cases he : cpu.socket = i
  · subst he
    have h1 : ((P.filter fun x => x.socket = cpu.socket) ++ [cpu]).take p =
        (P.filter fun x => x.socket = cpu.socket) ++ [cpu] :=
      List.take_of_length_le (by simp only [List.length_append, List.length_singleton]; omega)
    rw [getElem?_socketBlocks hs, filter_snoc, if_pos rfl, h1, if_pos rfl,
      if_pos (by simpa [socketBlocks] using hs), List.take_of_length_le (Nat.le_of_lt h)]
  · rw [if_neg he]
    by_cases hi : i < S
    · rw [getElem?_socketBlocks hi, getElem?_socketBlocks hi, filter_snoc, if_neg he,
        List.append_nil]
    · rw [List.getElem?_eq_none (by simp [socketBlocks]; omega),
        List.getElem?_eq_none (by simp [socketBlocks]; omega)]

/-- The lists of distinct CPUs hold distinct CPUs. -/
theorem nodup_flatten_socketBlocks (h : P.Nodup) : (socketBlocks S p P).flatten.Nodup := by
  refine List.nodup_flatten.mpr ⟨?_, ?_⟩
  · simp only [socketBlocks, List.mem_map]
    rintro _ ⟨i, -, rfl⟩
    exact (List.take_sublist _ _).nodup (h.filter _)
  · rw [socketBlocks, List.pairwise_map]
    exact List.Pairwise.imp (fun hij => fun ⦃_⦄ hx hx' =>
      hij ((mem_of_mem_block hx).2.symm.trans (mem_of_mem_block hx').2)) (List.nodup_range S)

/-- The lists hold their sockets in increasing order. -/
theorem pairwise_flatten_socketBlocks :
    (socketBlocks S p P).flatten.Pairwise fun a b => a.socket ≤ b.socket := by
  refine List.pairwise_flatten.mpr ⟨?_, ?_⟩
  · simp only [socketBlocks, List.mem_map]
    rintro _ ⟨i, -, rfl⟩
    exact (List.pairwise_filter.mpr (List.pairwise_of_forall fun _ _ hx hy =>
      Nat.le_of_eq (hx.trans hy.symm))).sublist (List.take_sublist _ _)
  · rw [socketBlocks, List.pairwise_map]
    exact (List.pairwise_lt_range S).imp fun hij x hx y hy => by
      rw [(mem_of_mem_block hx).2, (mem_of_mem_block hy).2]
      exact Nat.le_of_lt hij

/-- **Equal sockets fill evenly.** When each socket `i < S` holds `k` of the distinct CPUs `P`,
the lists after all of `P` hold at least `min |P| (S * p)` CPUs: all of `P` when `k ≤ p`, and
`p` on every socket otherwise. -/
theorem min_le_length_flatten_socketBlocks {k : ℕ} (hP : P.Nodup) (hPs : ∀ x ∈ P, x.socket < S)
    (hk : ∀ i, i < S → (P.filter fun x => x.socket = i).length = k) :
    min P.length (S * p) ≤ (socketBlocks S p P).flatten.length := by
  by_cases hkp : k ≤ p
  · -- no socket fills up, so every CPU is allocated
    have hsub : P ⊆ (socketBlocks S p P).flatten := fun x hx =>
      mem_flatten_socketBlocks.mpr ⟨hPs x hx, by
        rw [List.take_of_length_le ((hk _ (hPs x hx)).trans_le hkp)]
        exact List.mem_filter.mpr ⟨hx, decide_eq_true rfl⟩⟩
    exact (Nat.min_le_left _ _).trans (hP.subperm hsub).length_le
  · -- every socket fills up
    have hp : ∀ i ∈ List.range S,
        (List.length ∘ fun i => (P.filter fun x => x.socket = i).take p) i = p := fun i hi => by
      simp only [Function.comp, List.length_take, hk i (List.mem_range.mp hi)]
      omega
    rw [List.length_flatten, socketBlocks, List.map_map, List.map_congr_left hp,
      List.map_const', List.sum_replicate, List.length_range]
    exact Nat.min_le_right _ _

theorem socketBlocks_succ :
    socketBlocks (S + 1) p P = socketBlocks S p P ++ [(P.filter fun x => x.socket = S).take p] := by
  simp [socketBlocks, List.range_succ]

/-- Filtering the socket lists on socket `i` gives the list of socket `i`. -/
theorem filter_flatten_socketBlocks (i : ℕ) :
    ((socketBlocks S p P).flatten.filter fun x => x.socket = i) =
      if i < S then (P.filter fun x => x.socket = i).take p else [] := by
  induction S with
  | zero => simp [socketBlocks]
  | succ S ih =>
    have hblock : (((P.filter fun x => x.socket = S).take p).filter fun x => x.socket = i) =
        if S = i then (P.filter fun x => x.socket = S).take p else [] := by
      split_ifs with h
      · exact List.filter_eq_self.mpr fun x hx => by simp [(mem_of_mem_block hx).2, h]
      · exact List.filter_eq_nil_iff.mpr fun x hx => by simp [(mem_of_mem_block hx).2, h]
    rw [socketBlocks_succ, List.flatten_append, List.filter_append, ih, List.flatten_singleton,
      hblock]
    rcases lt_trichotomy i S with hi | rfl | hi
    · simp [hi, hi.ne', Nat.lt_succ_of_lt hi]
    · simp
    · simp [hi.ne, Nat.not_lt.mpr hi.le, Nat.not_lt.mpr hi]

/-- One turn of the loop of `Interleave` from the socket lists of `P`, short of `howMany` CPUs, at
a CPU of a socket below `S`: the loop goes on from the socket lists of `P ++ [cpu]`, which hold at
most one CPU more. -/
theorem interleaveLoop_cons (R : List CpuInfo) {howMany : ℕ} {cpu : CpuInfo} (hs : cpu.socket < S)
    (hnum : (socketBlocks S p P).flatten.length ≠ howMany) :
    (socketBlocks S p (P ++ [cpu])).flatten.length ≤ (socketBlocks S p P).flatten.length + 1 ∧
      interleaveLoop howMany p (socketBlocks S p P) (socketBlocks S p P).flatten.length (cpu :: R) =
        interleaveLoop howMany p (socketBlocks S p (P ++ [cpu]))
          (socketBlocks S p (P ++ [cpu])).flatten.length R := by
  rw [interleaveLoop, if_neg hnum, getElem?_socketBlocks hs]
  dsimp only
  rw [List.length_take]
  split_ifs with hfull
  · rw [socketBlocks_snoc_full (by omega)]
    exact ⟨Nat.le_succ _, rfl⟩
  · have hset := socketBlocks_snoc_room hs
      (by omega : (P.filter fun x => x.socket = cpu.socket).length < p)
    have hcount : (socketBlocks S p (P ++ [cpu])).flatten.length =
        (socketBlocks S p P).flatten.length + 1 := by
      have := length_flatten_set ((P.filter fun x => x.socket = cpu.socket).take p ++ [cpu])
        (getElem?_socketBlocks hs : (socketBlocks S p P)[cpu.socket]? = _)
      rw [← hset, List.length_append, List.length_take] at this
      simp only [List.length_singleton] at this
      omega
    rw [← hset, hcount]
    exact ⟨le_rfl, rfl⟩

end Blocks

/-- **The loop of `Interleave`.** Run on CPUs of the sockets `0, …, S - 1` from the socket lists
of the CPUs `P` already seen, the loop ends with the socket lists of a prefix `P'` of all its
CPUs, holding at most `howMany` CPUs; it ends before the last CPU only at `howMany` CPUs. -/
theorem interleaveLoop_socketBlocks (S p howMany : ℕ) {L : List CpuInfo}
    (hL : ∀ x ∈ L, x.socket < S) :
    ∀ (R P : List CpuInfo), P ++ R = L → (socketBlocks S p P).flatten.length ≤ howMany →
      ∃ P', P' <+: L ∧ (socketBlocks S p P').flatten.length ≤ howMany ∧
        ((socketBlocks S p P').flatten.length = howMany ∨ P' = L) ∧
        interleaveLoop howMany p (socketBlocks S p P) (socketBlocks S p P).flatten.length R =
          some (socketBlocks S p P')
  | [], P, hPL, hle => ⟨P, by simp [← hPL], hle, .inr (by simpa using hPL), rfl⟩
  | cpu :: R, P, hPL, hle => by
    have hs : cpu.socket < S := hL cpu (by simp [← hPL])
    by_cases hnum : (socketBlocks S p P).flatten.length = howMany
    · rw [interleaveLoop, if_pos hnum]
      exact ⟨P, by simp [← hPL], hle, .inl hnum, rfl⟩
    obtain ⟨hcount, hstep⟩ := interleaveLoop_cons R hs hnum
    rw [hstep]
    exact interleaveLoop_socketBlocks S p howMany hL R (P ++ [cpu]) (by simpa using hPL) (by omega)

/-- `⌈howMany / S⌉` CPUs on each of `S` sockets cover `howMany`. -/
theorem le_mul_ceilDiv {howMany S : ℕ} (hS : 0 < S) : howMany ≤ S * ((howMany + S - 1) / S) := by
  have := Nat.div_add_mod (howMany + S - 1) S
  have := Nat.mod_lt (howMany + S - 1) hS
  omega

/-- **Interleave spreads the threads.** On a machine of distinct CPUs whose sockets are
`0, …, S - 1` and hold equally many usable CPUs, `Interleave` for at most as many threads as
usable CPUs does not panic (`data` is a vector of CPU records, so `VecFits data.length`, and
`Vec::with_capacity` accepts every such thread count); it returns `howMany` distinct CPUs of
the machine, at most `⌈howMany / S⌉` of each socket, socket by socket in increasing order. -/
theorem allocate_interleave (data : List CpuInfo) (hnd : data.Nodup) (hvec : VecFits data.length)
    (S : ℕ) (hS : 0 < S)
    (hsock : ∀ i, i < S ↔ ∃ x ∈ data, x.socket = i) (useHt : Bool)
    (heq : ∀ i j, i < S → j < S →
      (((MachineTopology.mk data).usableCpus useHt).filter fun x => x.socket = i).length =
        (((MachineTopology.mk data).usableCpus useHt).filter fun x => x.socket = j).length)
    (howMany : ℕ) (hle : howMany ≤ ((MachineTopology.mk data).usableCpus useHt).length) :
    ∃ c, (MachineTopology.mk data).allocate .interleave howMany useHt = some c ∧
      c.length = howMany ∧ c.Nodup ∧ (∀ x ∈ c, x ∈ data) ∧
      (∀ i, (c.filter fun x => x.socket = i).length ≤ (howMany + S - 1) / S) ∧
      c.Pairwise fun a b => a.socket ≤ b.socket := by
  set F := (MachineTopology.mk data).usableCpus useHt
  set p := (howMany + S - 1) / S
  set L := coreRepresentatives F ++ sortByKey CpuInfo.core (hyperThreads F)
  have hF : F.Nodup := MachineTopology.nodup_usableCpus hnd useHt
  have hLF : List.Perm L F :=
    ((sortByKey_perm _ _).append_left _).trans (coreRepresentatives_append_hyperThreads_perm hF)
  have hL : L.Nodup := hLF.nodup_iff.mpr hF
  have hLd : ∀ x ∈ L, x ∈ data := fun x hx =>
    MachineTopology.mem_of_mem_usableCpus (hLF.subset hx)
  have hLs : ∀ x ∈ L, x.socket < S := fun x hx => (hsock _).mpr ⟨x, hLd x hx, rfl⟩
  obtain ⟨P', hpre, hle', hstop, hloop⟩ := interleaveLoop_socketBlocks S p howMany hLs L []
    (List.nil_append L) (by simp [socketBlocks_nil])
  have hc : (socketBlocks S p P').flatten.Nodup :=
    nodup_flatten_socketBlocks (hpre.sublist.nodup hL)
  have hlen : (socketBlocks S p P').flatten.length = howMany := by
    refine Nat.le_antisymm hle' ?_
    rcases hstop with h | rfl
    · exact h.ge
    -- the loop went through every CPU; the sockets hold equally many of them
    have hk : ∀ i, i < S → (L.filter fun x => x.socket = i).length =
        (L.filter fun x => x.socket = 0).length := fun i hi => by
      rw [(hLF.filter _).length_eq, (hLF.filter _).length_eq]
      exact heq i 0 hi hS
    calc howMany ≤ min L.length (S * p) :=
          Nat.le_min.mpr ⟨hle.trans hLF.length_eq.ge, le_mul_ceilDiv hS⟩
      _ ≤ _ := min_le_length_flatten_socketBlocks hL hLs hk
  refine ⟨_, ?_, hlen, hc, fun x hx => hLd x (hpre.subset
    (mem_of_mem_block (mem_flatten_socketBlocks.mp hx).2).1), fun i => ?_,
    pairwise_flatten_socketBlocks⟩
  · simp only [socketBlocks_nil, List.flatten_replicate_nil, List.length_nil] at hloop
    have hcap : VecFits howMany := hvec.mono (hle.trans (MachineTopology.length_usableCpus_le _))
    simp only [MachineTopology.allocate, if_pos hcap, MachineTopology.length_sockets hsock,
      hS.ne', if_false]
    rw [hloop]
    exact if_pos hlen
  · refine ((hc.filter _).subperm fun x hx => ?_).length_le.trans
      (List.length_take_le p (P'.filter fun x => x.socket = i))
    obtain ⟨hx, hxi⟩ := List.mem_filter.mp hx
    rw [← of_decide_eq_true hxi]
    exact (mem_flatten_socketBlocks.mp hx).2

/-- Two sockets of one core each, with two hyperthreads per core: without hyperthreads, two
threads go one to each socket. -/
theorem allocate_interleave_two_sockets :
    ∃ data : List CpuInfo, data.length = 4 ∧
      ∃ c, (MachineTopology.mk data).allocate .interleave 2 false = some c ∧
        c.length = 2 ∧ c.Nodup ∧ (∀ x ∈ c, x ∈ data) ∧
        (∀ i, (c.filter fun x => x.socket = i).length ≤ (2 + 2 - 1) / 2) ∧
        c.Pairwise fun a b => a.socket ≤ b.socket := by
  refine ⟨[⟨none, 0, 0, 0, 0, 0, 0⟩, ⟨none, 1, 1, 1, 1, 1, 1⟩, ⟨none, 0, 0, 2, 0, 0, 0⟩,
    ⟨none, 1, 1, 3, 1, 1, 1⟩], rfl, allocate_interleave _ (by decide) (by decide) 2 (by decide)
      (fun i => ⟨fun h => ?_, ?_⟩) false (fun i j hi hj => ?_) 2 (by decide)⟩
  · rcases i with _ | _ | i
    · decide
    · decide
    · omega
  · rintro ⟨x, hx, rfl⟩
    revert x
    decide
  · rcases i with _ | _ | i <;> rcases j with _ | _ | j <;> first | decide | omega


/-! ## Every answer of Interleave -/

/-- **What the loop returns.** Whenever the loop of `Interleave`, run on the CPUs `R` from the
socket lists of the CPUs `P`, returns, it returns the socket lists of `P` followed by a prefix
of `R`; at a CPU whose socket has no list it panics. -/
theorem interleaveLoop_eq_some (S p howMany : ℕ) :
    ∀ (R P : List CpuInfo) {A : List (List CpuInfo)},
      interleaveLoop howMany p (socketBlocks S p P) (socketBlocks S p P).flatten.length R =
        some A → ∃ R', R' <+: R ∧ A = socketBlocks S p (P ++ R')
  | [], P, A, h => ⟨[], List.nil_prefix, by rw [List.append_nil]; exact (Option.some.inj h).symm⟩
  | cpu :: R, P, A, h => by
    by_cases hnum : (socketBlocks S p P).flatten.length = howMany
    · rw [interleaveLoop, if_pos hnum] at h
      exact ⟨[], List.nil_prefix, by rw [List.append_nil]; exact (Option.some.inj h).symm⟩
    by_cases hs : cpu.socket < S
    · rw [(interleaveLoop_cons R hs hnum).2] at h
      obtain ⟨R', hR', rfl⟩ := interleaveLoop_eq_some S p howMany R (P ++ [cpu]) h
      exact ⟨cpu :: R', (List.prefix_cons_inj cpu).mpr hR', by simp⟩
    · rw [interleaveLoop, if_neg hnum, List.getElem?_eq_none (by simp [socketBlocks]; omega)] at h
      cases h

namespace MachineTopology

variable {t : MachineTopology} {howMany : ℕ} {useHt : Bool} {c : List CpuInfo}

/-- An answer of `Interleave` holds `howMany` CPUs and is the socket lists of a prefix of its walk
over the usable CPUs, one per core first and then the hyperthreads. -/
theorem allocate_interleave_eq_some (h : t.allocate .interleave howMany useHt = some c) :
    ∃ R', R' <+: coreRepresentatives (t.usableCpus useHt) ++
        sortByKey CpuInfo.core (hyperThreads (t.usableCpus useHt)) ∧
      c = (socketBlocks t.sockets.length ((howMany + t.sockets.length - 1) / t.sockets.length)
        R').flatten ∧ c.length = howMany := by
  set S := t.sockets.length
  set p := (howMany + S - 1) / S
  set L := coreRepresentatives (t.usableCpus useHt) ++
    sortByKey CpuInfo.core (hyperThreads (t.usableCpus useHt))
  unfold allocate at h
  dsimp only at h
  split_ifs at h
  split at h
  · cases h
  · rename_i A hA
    split_ifs at h with hlen
    cases h
    have hA' : interleaveLoop howMany p (socketBlocks S p []) (socketBlocks S p []).flatten.length
        L = some A := by
      simpa [socketBlocks_nil] using hA
    obtain ⟨R', hR', rfl⟩ := interleaveLoop_eq_some S p howMany L [] hA'
    exact ⟨R', hR', rfl, hlen⟩

theorem mem_usableCpus_of_mem_walk {x : CpuInfo}
    (hx : x ∈ coreRepresentatives (t.usableCpus useHt) ++
      sortByKey CpuInfo.core (hyperThreads (t.usableCpus useHt))) : x ∈ t.usableCpus useHt := by
  rcases List.mem_append.mp hx with hx | hx
  · exact mem_of_mem_coreRepresentatives hx
  · exact List.mem_of_mem_filter ((sortByKey_perm _ _).subset hx)

/-- **Interleave is sound on every machine.** Whenever `Interleave` returns rather than panics,
it returns `howMany` usable CPUs, distinct when the machine's CPUs are, at most
`⌈howMany / S⌉` of each socket for `S` sockets, socket by socket in increasing order. -/
theorem allocate_interleave_sound (h : t.allocate .interleave howMany useHt = some c) :
    c.length = howMany ∧ (∀ x ∈ c, x ∈ t.usableCpus useHt) ∧ (t.data.Nodup → c.Nodup) ∧
      (∀ i, (c.filter fun x => x.socket = i).length ≤
        (howMany + t.sockets.length - 1) / t.sockets.length) ∧
      c.Pairwise fun a b => a.socket ≤ b.socket := by
  obtain ⟨R', hR', rfl, hlen⟩ := allocate_interleave_eq_some h
  refine ⟨hlen, fun x hx => mem_usableCpus_of_mem_walk (hR'.subset
    (mem_of_mem_block (mem_flatten_socketBlocks.mp hx).2).1), fun hnd => ?_, fun i => ?_,
    pairwise_flatten_socketBlocks⟩
  · have hF := nodup_usableCpus hnd useHt
    exact nodup_flatten_socketBlocks (hR'.sublist.nodup ((((sortByKey_perm _ _).append_left _).trans
      (coreRepresentatives_append_hyperThreads_perm hF)).nodup_iff.mpr hF))
  · rw [filter_flatten_socketBlocks]
    split_ifs
    · exact List.length_take_le _ _
    · exact Nat.zero_le _

/-- Socket `0` has two cores and socket `1` one, so the sockets are not even: two threads still
go one to each socket. -/
theorem allocate_interleave_sound_uneven :
    ∃ c, (mk [⟨none, 0, 0, 0, 0, 0, 0⟩, ⟨none, 0, 1, 1, 1, 1, 0⟩,
        ⟨none, 1, 2, 2, 2, 2, 1⟩]).allocate .interleave 2 false = some c ∧
      c = [⟨none, 0, 0, 0, 0, 0, 0⟩, ⟨none, 1, 2, 2, 2, 2, 1⟩] ∧
      c.length = 2 ∧ (∀ x ∈ c, x ∈ (mk [⟨none, 0, 0, 0, 0, 0, 0⟩,
        ⟨none, 0, 1, 1, 1, 1, 0⟩, ⟨none, 1, 2, 2, 2, 2, 1⟩]).usableCpus false) ∧
      ((mk [⟨none, 0, 0, 0, 0, 0, 0⟩, ⟨none, 0, 1, 1, 1, 1, 0⟩,
        ⟨none, 1, 2, 2, 2, 2, 1⟩]).data.Nodup → c.Nodup) ∧
      (∀ i, (c.filter fun x => x.socket = i).length ≤ (2 + 2 - 1) / 2) ∧
      c.Pairwise fun a b => a.socket ≤ b.socket :=
  ⟨_, rfl, rfl, allocate_interleave_sound rfl⟩

/-- **Interleave takes cores before hyperthreads.** Whenever `Interleave` returns, a CPU of its
answer from `ht2` (not the first CPU of its core) is on a socket all of whose CPUs in `ht1` (the
first CPU of every core) are in the answer too. -/
theorem interleave_cores_before_hyperThreads {x : CpuInfo} (howMany : ℕ)
    (h : t.allocate .interleave howMany useHt = some c) (hx : x ∈ c)
    (hht : x ∈ hyperThreads (t.usableCpus useHt)) :
    (coreRepresentatives (t.usableCpus useHt)).filter (fun y => y.socket = x.socket) ⊆ c := by
  obtain ⟨R', hR', rfl, -⟩ := allocate_interleave_eq_some h
  set A := coreRepresentatives (t.usableCpus useHt)
  have hxA : x ∉ A := by simpa [hyperThreads] using (List.mem_filter.mp hht).2
  intro y hy
  obtain ⟨hy, hys⟩ := List.mem_filter.mp hy
  replace hys : y.socket = x.socket := of_decide_eq_true hys
  obtain ⟨hxs, hxR⟩ := mem_flatten_socketBlocks.mp hx
  -- the walk reached `x`, so it went through all of `ht1`
  obtain ⟨B, rfl⟩ : A <+: R' := List.prefix_of_prefix_length_le (List.prefix_append _ _) hR' <|
    Nat.le_of_not_lt fun hlt => hxA
      ((List.prefix_of_prefix_length_le hR' (List.prefix_append _ _) hlt.le).subset
        (mem_of_mem_block hxR).1)
  -- and `x` was taken after the CPUs of `ht1` on its socket, so they were all taken
  rw [List.filter_append] at hxR
  have hroom : (A.filter fun z => z.socket = x.socket).length < _ := Nat.lt_of_not_le fun hle =>
    hxA (List.mem_of_mem_filter (List.mem_of_mem_take
      (by rwa [List.take_append_of_le_length hle] at hxR)))
  refine mem_flatten_socketBlocks.mpr ⟨hys ▸ hxs, ?_⟩
  rw [hys, List.filter_append, List.take_append_eq_append_take, List.take_of_length_le hroom.le]
  exact List.mem_append_left _ (List.mem_filter.mpr ⟨hy, decide_eq_true hys⟩)

end MachineTopology

/-- One socket with two cores of two hyperthreads each: with hyperthreads, three threads take
both cores and then CPU `1`, the second hyperthread of core `0`. -/
theorem interleave_cores_before_hyperThreads_one_socket :
    ∃ t : MachineTopology, t.data = [⟨none, 0, 0, 0, 0, 0, 0⟩, ⟨none, 0, 0, 1, 0, 0, 0⟩,
        ⟨none, 0, 1, 2, 1, 1, 0⟩, ⟨none, 0, 1, 3, 1, 1, 0⟩] ∧
      ∃ c, t.allocate .interleave 3 true = some c ∧ (⟨none, 0, 0, 1, 0, 0, 0⟩ : CpuInfo) ∈ c ∧
        (⟨none, 0, 0, 1, 0, 0, 0⟩ : CpuInfo) ∈ hyperThreads (t.usableCpus true) ∧
        (coreRepresentatives (t.usableCpus true)).filter
          (fun y => y.socket = (⟨none, 0, 0, 1, 0, 0, 0⟩ : CpuInfo).socket) ⊆ c :=
  ⟨⟨_⟩, rfl, _, rfl, by decide, by decide,
    MachineTopology.interleave_cores_before_hyperThreads 3 rfl (by decide) (by decide)⟩

end NodeReplication.Topology
