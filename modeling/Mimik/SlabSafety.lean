/-
# What the slab heap promises its clients

Three promises, over all runs of `mm_alloc` and `mm_free`: allocations that are live
at one time do not overlap, what was allocated can be freed, and a request that is
admitted is served as long as there are pages.  The first holds
as long as no request exceeds 48 bytes, because `get_slab_from_size` counts bits
where the classes advance by half a bit, and hands out chunks that are too small
for larger requests.  The second holds of no allocation at all, because the mask of
`SLABTYPE` keeps the constant high bits of a heap address.  The third holds from 9 bytes
on: for fewer, `get_slab_from_size` looks at the class before the first one, takes it to
be large enough, and ends with a class that does not exist.
-/
import Mimik.SlabInvariant
import Mathlib.Data.Nat.Log

namespace Mimik.SlabHeap

/-! ## The class of a request -/

/-- **One smear step.**  When the top `j` bits of an `n`-bit number are set, after
the step `2 * j` are. -/
theorem smear {x n j : ℕ} (htop : ∀ i < n, n ≤ i + j → x.testBit i = true) :
    ∀ i < n, n ≤ i + 2 * j → (x ||| x >>> j).testBit i = true := by
  intro i hi hle
  rw [Nat.testBit_or, Nat.testBit_shiftRight, Bool.or_eq_true]
  rcases lt_or_ge (j + i) n with hlt | hge
  · exact Or.inr (htop _ hlt (by omega))
  · exact Or.inl (htop _ hi (by omega))

/-- `ceil_to_power_of_2` rounds up to the next power of two. -/
theorem ceilToPowerOf2_eq {sz n : ℕ} (hn : n < 64) (hlo : 2 ^ n < 2 * sz) (hhi : sz ≤ 2 ^ n) :
    ceilToPowerOf2 sz = 2 ^ n := by
  have hpow : 0 < 2 ^ n := Nat.two_pow_pos n
  have hpred : pred64 sz = sz - 1 := if_neg (by omega)
  have hlt : pred64 sz < 2 ^ n := by omega
  have htop : ∀ i < n, n ≤ i + 1 → (pred64 sz).testBit i = true := by
    intro i hi hle
    obtain rfl : n = i + 1 := by omega
    rw [Nat.pow_succ] at hlo
    exact Nat.testBit_of_two_pow_le_and_two_pow_add_one_gt (by omega) hlt
  have h1 := or_shiftRight_lt (k := 1) hlt
  have h2 := or_shiftRight_lt (k := 2) h1
  have h4 := or_shiftRight_lt (k := 4) h2
  have h8 := or_shiftRight_lt (k := 8) h4
  have h16 := or_shiftRight_lt (k := 16) h8
  have h32 := or_shiftRight_lt (k := 32) h16
  have hall := smear (smear (smear (smear (smear (smear htop)))))
  rw [ceilToPowerOf2]
  -- all the low `n` bits are set, and no others
  have hsmeared : ∀ y, y < 2 ^ n → (∀ i < n, n ≤ i + 64 → y.testBit i = true) →
      wrap64 (y + 1) = 2 ^ n := by
    intro y hy hbits
    have hones : y = 2 ^ n - 1 := by
      refine Nat.eq_of_testBit_eq (fun i => ?_)
      rw [Nat.testBit_two_pow_sub_one]
      rcases lt_or_ge i n with hi | hi
      · rw [hbits i hi (by omega), decide_eq_true hi]
      · rw [Nat.testBit_lt_two_pow (lt_of_lt_of_le hy (Nat.pow_le_pow_right (by omega) hi)),
          decide_eq_false (by omega)]
    have hfit : 2 ^ n < 2 ^ 64 := Nat.pow_lt_pow_right (by omega) hn
    rw [hones, Nat.sub_add_cancel hpow, wrap64_of_lt hfit]
  exact hsmeared _ h32 hall

/-- **The class of a request of more than 48 bytes**: up to the next power of two
`2 ^ n`, it is the class `n - 3`. -/
theorem getSlabFromSize_eq {sz n : ℕ} (h48 : 48 < sz) (hn : n ≤ 12) (hlo : 2 ^ n < 2 * sz)
    (hhi : sz ≤ 2 ^ n) : getSlabFromSize sz = .ok (n - 3) := by
  have hclass : ∀ n < 13, 6 ≤ n →
      sizeClass 64 (2 ^ n >>> 4) 0 = n - 3 ∧ n - 3 < slabMax ∧ predType (n - 3) = n - 4 ∧
        (6 < n → 2 * slabSize (n - 4) < 2 ^ n) := by
    decide
  have h6 : 6 ≤ n := by
    by_contra hlt
    have : 2 ^ n ≤ 2 ^ 5 := Nat.pow_le_pow_right (by omega) (by omega)
    omega
  obtain ⟨hloop, hmax, hpred, hsmall⟩ := hclass n (by omega) h6
  have hnofit : ¬ sz ≤ slabSize (predType (n - 3)) := by
    rw [hpred]
    rcases Nat.lt_or_ge 6 n with hgt | hle
    · have := hsmall hgt
      omega
    · obtain rfl : n = 6 := by omega
      have : slabSize (6 - 4) = 32 := by decide
      omega
  rw [getSlabFromSize]
  simp only [ceilToPowerOf2_eq (by omega) hlo hhi, hloop, if_neg hnofit, hmax, decide_true,
    assert_true]
  rfl

/-- Every size has a power of two that bounds it closely. -/
theorem exists_two_pow_bound {sz : ℕ} (hpos : 0 < sz) (hsz : sz ≤ 2 ^ 12) :
    ∃ n ≤ 12, 2 ^ n < 2 * sz ∧ sz ≤ 2 ^ n := by
  refine ⟨Nat.clog 2 sz, ?_, ?_, Nat.le_pow_clog (by omega) sz⟩
  · exact Nat.clog_le_of_le_pow hsz
  · rcases Nat.lt_or_ge 1 sz with h1 | h1
    · have := Nat.pow_pred_clog_lt_self (b := 2) (by omega) h1
      obtain ⟨m, hm⟩ := Nat.exists_eq_succ_of_ne_zero (Nat.clog_pos (b := 2) (by omega) h1).ne'
      rw [hm, Nat.succ_eq_add_one, Nat.pred_eq_sub_one, Nat.add_sub_cancel] at this
      rw [hm, Nat.succ_eq_add_one, Nat.pow_succ]
      omega
    · obtain rfl : sz = 1 := by omega
      simp

/-! ## Live allocations are disjoint -/

/-- No two live allocations share a byte, and every byte of a live allocation lies
in a page that was mapped for its slab. -/
def LiveDisjoint (r : HeapRun) : Prop :=
  r.live.Pairwise (fun a b => a.1 + a.2 ≤ b.1 ∨ b.1 + b.2 ≤ a.1) ∧
  ∀ a ∈ r.live, ∃ type, getSlabFromSize a.2 = .ok type ∧
    ∀ b, a.1 ≤ b → b < a.1 + a.2 →
      ∃ page, (type, page) ∈ r.heap.mapped ∧ page ≤ b ∧ b < page + pageSize

/-- The calls of a client that requests only sizes in `sizes`, and frees what it
holds. -/
def requestsOnly (sizes : Set ℕ) (r : HeapRun) : HeapEvent → Prop
  | .alloc sz => sz ∈ sizes
  | .free p => ∃ a ∈ r.live, a.1 = p

/-- In a heap in good order, allocations that fit in their chunks are disjoint. -/
theorem HeapOk.liveDisjoint {r : HeapRun} {pages chunks : ℕ → ℕ} (hr : HeapOk r pages chunks)
    (hfit : ∀ a ∈ r.live, a.2 ≤ 48) : LiveDisjoint r := by
  have hchunk : ∀ a ∈ r.live, ∃ type < usedClasses, ∃ k < chunks type,
      getSlabFromSize a.2 = .ok type ∧ a.1 = chunkAt type k ∧ a.2 ≤ slabSize type := by
    intro a ha
    obtain ⟨type, ht, hsize, ⟨k, hk, hak⟩, -⟩ := hr.held a ha
    exact ⟨type, ht, k, hk, hsize, hak, le_slabSize_of_le_48 (hfit a ha) hsize⟩
  constructor
  · refine hr.distinct.imp_of_mem ?_
    intro a b ha hb hne
    obtain ⟨type, ht, k, hk, -, hak, hasz⟩ := hchunk a ha
    obtain ⟨type', ht', k', hk', -, hbk, hbsz⟩ := hchunk b hb
    by_contra hover
    rw [not_or, not_le, not_le] at hover
    have hpos := (slabSize_bounds ht).1
    have hpos' := (slabSize_bounds ht').1
    -- the larger of the two addresses is a byte of both chunks
    obtain rfl : type = type' :=
      hr.class_unique (b := max a.1 b.1) ht ht' hk hk' (by omega) (by omega) (by omega)
        (by omega)
    have hsep : k < k' ∨ k' < k := by
      rcases Nat.lt_trichotomy k k' with h | rfl | h
      · exact Or.inl h
      · exact absurd (hak.trans hbk.symm) hne
      · exact Or.inr h
    rcases hsep with h | h
    · have := chunkAt_mono type (Nat.succ_le_of_lt h)
      rw [Nat.succ_eq_add_one, chunkAt_succ] at this
      omega
    · have := chunkAt_mono type (Nat.succ_le_of_lt h)
      rw [Nat.succ_eq_add_one, chunkAt_succ] at this
      omega
  · intro a ha
    obtain ⟨type, ht, k, hk, hsize, hak, hasz⟩ := hchunk a ha
    refine ⟨type, hsize, fun b hlo hhi => ?_⟩
    exact (hr.slab type ht).page_of_byte hk (hak ▸ hlo) (by omega)

/-- Only requested sizes are live. -/
theorem live_sizes {env : HeapEnv} {sizes : Set ℕ} {r : HeapRun} {es : List HeapEvent}
    (hrun : GuardedRun.Run (HeapRun.step env) (requestsOnly sizes) .init es r) :
    ∀ a ∈ r.live, a.2 ∈ sizes := by
  refine hrun.invariant (I := fun r => ∀ a ∈ r.live, a.2 ∈ sizes) ?_ (by simp [HeapRun.init])
  intro r e r' hr he hstep
  cases e with
  | alloc sz =>
    obtain ⟨⟨p, h'⟩, -, hret⟩ := Except.bind_eq_ok_iff.mp hstep
    cases hret
    intro a ha
    rcases List.mem_cons.mp ha with rfl | ha
    · exact he
    · exact hr a ha
  | free p =>
    obtain ⟨h', -, hret⟩ := Except.bind_eq_ok_iff.mp hstep
    cases hret
    exact fun a ha => hr a (List.mem_of_mem_filter ha)

/-- An environment that always has a frame to give. -/
def openEnv : HeapEnv where
  freelistHead _ := 0
  avail _ := true
  taken page := page == layoutVaddrStart
  image_taken := beq_self_eq_true _

/-- The size of a request matters only through its class. -/
theorem mmAlloc_congr {env : HeapEnv} {h : Heap} {sz sz' : ℕ} (hsz : sz < 2 ^ 12)
    (hsz' : sz' < 2 ^ 12) (hclass : getSlabFromSize sz = getSlabFromSize sz') :
    mmAlloc env h sz = mmAlloc env h sz' := by
  have hmax : slabSize (slabMax - 1) = 2 ^ 12 := by decide
  rw [mmAlloc, mmAlloc, hmax, decide_eq_true hsz, decide_eq_true hsz', hclass]

/-- Two requests of one class are served from a fresh slab by neighbouring chunks,
the second below the first. -/
theorem neighbours {n : ℕ} (hlo : 6 ≤ n) (hhi : n ≤ 12) :
    ∃ p₁ h₁ p₂ h₂, mmAlloc openEnv mmInit (2 ^ n - 1) = .ok (p₁, h₁) ∧
      mmAlloc openEnv h₁ (2 ^ n - 1) = .ok (p₂, h₂) ∧
      p₁ = p₂ + slabSize (n - 3) ∧ 2 * slabSize (n - 3) ≤ max 96 (2 ^ n) := by
  have hall : ∀ n < 13, 6 ≤ n → ((mmAlloc openEnv mmInit (2 ^ n - 1)).toOption.any fun a =>
      (mmAlloc openEnv a.2 (2 ^ n - 1)).toOption.any fun b =>
        a.1 == b.1 + slabSize (n - 3)) = true ∧ 2 * slabSize (n - 3) ≤ max 96 (2 ^ n) := by
    decide
  obtain ⟨htest, hsmall⟩ := hall n (by omega) hlo
  obtain ⟨⟨p₁, h₁⟩, hfst, htest⟩ := Except.exists_of_any htest
  obtain ⟨⟨p₂, h₂⟩, hsnd, htest⟩ := Except.exists_of_any htest
  exact ⟨p₁, h₁, p₂, h₂, hfst, hsnd, beq_iff_eq.mp htest, hsmall⟩

/-- A request of more than 48 bytes is served from a fresh heap, by a chunk that is too
small for it. -/
theorem chunk_too_small {sz : ℕ} (h48 : 48 < sz) (hsz : sz < 2 ^ 12) :
    ∃ type p h, mmAlloc openEnv mmInit sz = .ok (p, h) ∧ getSlabFromSize sz = .ok type ∧
      slabSize type < sz := by
  obtain ⟨n, hn, hlo, hhi⟩ := exists_two_pow_bound (by omega) hsz.le
  have h6 : 6 ≤ n := by
    by_contra hn6
    have : 2 ^ n ≤ 2 ^ 5 := Nat.pow_le_pow_right (by omega) (by omega)
    omega
  have hpow : 2 ^ 6 ≤ 2 ^ n ∧ 2 ^ n ≤ 2 ^ 12 :=
    ⟨Nat.pow_le_pow_right (by omega) h6, Nat.pow_le_pow_right (by omega) hn⟩
  have hclass := getSlabFromSize_eq h48 hn hlo hhi
  have hclass' : getSlabFromSize sz = getSlabFromSize (2 ^ n - 1) := by
    rw [hclass, getSlabFromSize_eq (n := n) (by omega) hn (by omega) (by omega)]
  obtain ⟨p, h, -, -, halloc, -, -, hsmall⟩ := neighbours h6 hn
  rw [← mmAlloc_congr hsz (by omega) hclass'] at halloc
  exact ⟨n - 3, p, h, halloc, hclass, by omega⟩

/-- **Live allocations never overlap, exactly when no request exceeds 48 bytes.**
For every set of request sizes that `mm_alloc` accepts: in every run that requests
these sizes only and frees what it holds, whatever frames there are, all live
allocations are disjoint and lie in the pages of their slabs, if and only if the
set contains no size above 48. -/
theorem liveDisjoint_iff_le_48 (sizes : Set ℕ)
    (hsizes : ∀ sz ∈ sizes, 0 < sz ∧ sz < slabSize (slabMax - 1)) :
    (∀ env es r, GuardedRun.Run (HeapRun.step env) (requestsOnly sizes) .init es r →
      LiveDisjoint r) ↔ ∀ sz ∈ sizes, sz ≤ 48 := by
  have hmax : slabSize (slabMax - 1) = 2 ^ 12 := by decide
  rw [hmax] at hsizes
  constructor
  · intro hsafe sz hmem
    by_contra hlt
    obtain ⟨hpos, hsz⟩ := hsizes sz hmem
    obtain ⟨n, hn, hlo, hhi⟩ := exists_two_pow_bound hpos hsz.le
    have h6 : 6 ≤ n := by
      by_contra hn6
      have : 2 ^ n ≤ 2 ^ 5 := Nat.pow_le_pow_right (by omega) (by omega)
      omega
    have hpow : 2 ^ 6 ≤ 2 ^ n ∧ 2 ^ n ≤ 2 ^ 12 :=
      ⟨Nat.pow_le_pow_right (by omega) h6, Nat.pow_le_pow_right (by omega) hn⟩
    have hclass : getSlabFromSize sz = getSlabFromSize (2 ^ n - 1) := by
      rw [getSlabFromSize_eq (by omega) hn hlo hhi,
        getSlabFromSize_eq (n := n) (by omega) hn (by omega) (by omega)]
    obtain ⟨p₁, h₁, p₂, h₂, hfst, hsnd, hnext, hsmall⟩ := neighbours h6 hn
    rw [← mmAlloc_congr hsz (by omega) hclass] at hfst hsnd
    have hrun : GuardedRun.Run (HeapRun.step openEnv) (requestsOnly sizes) .init
        [.alloc sz, .alloc sz] { heap := h₂, live := [(p₂, sz), (p₁, sz)] } := by
      have hstep₁ : HeapRun.step openEnv .init (.alloc sz) =
          .ok { heap := h₁, live := [(p₁, sz)] } := by
        simp only [HeapRun.step, HeapRun.init, hfst]
        rfl
      have hstep₂ : HeapRun.step openEnv { heap := h₁, live := [(p₁, sz)] } (.alloc sz) =
          .ok { heap := h₂, live := [(p₂, sz), (p₁, sz)] } := by
        simp only [HeapRun.step, hsnd]
        rfl
      exact .cons hmem hstep₁ (.cons hmem hstep₂ (.nil _))
    have hdisj := (List.pairwise_cons.mp (hsafe _ _ _ hrun).1).1 (p₁, sz) List.mem_cons_self
    simp only at hdisj
    omega
  · intro hle env es r hrun
    have hclient : GuardedRun.Run (HeapRun.step env) clientOk .init es r := by
      refine hrun.mono (fun r e he => ?_)
      cases e with
      | alloc sz => exact (hsizes sz he).1
      | free p => exact he
    obtain ⟨pages, chunks, hr⟩ := heapOk_of_run hclient
    exact hr.liveDisjoint (fun a ha => hle _ (live_sizes hrun a ha))

/-- The sizes from 1 to 48 are such a set. -/
theorem liveDisjoint_iff_le_48_small :
    (∀ env es r, GuardedRun.Run (HeapRun.step env) (requestsOnly {sz | 0 < sz ∧ sz ≤ 48})
      .init es r → LiveDisjoint r) ↔ ∀ sz ∈ {sz : ℕ | 0 < sz ∧ sz ≤ 48}, sz ≤ 48 :=
  liveDisjoint_iff_le_48 {sz | 0 < sz ∧ sz ≤ 48} (fun sz hsz => by
    have hmax : slabSize (slabMax - 1) = 4096 := by decide
    rw [Set.mem_ofPred_eq] at hsz
    omega)

/-- Two requests of 64 bytes are served by chunks of 48 bytes. -/
theorem not_liveDisjoint_64 :
    ¬ ∀ env es r, GuardedRun.Run (HeapRun.step env)
        (requestsOnly {sz | 0 < sz ∧ sz < slabSize (slabMax - 1)}) .init es r →
      LiveDisjoint r := by
  intro hsafe
  have hmax : slabSize (slabMax - 1) = 4096 := by decide
  have hguard : ∀ e ∈ [HeapEvent.alloc 64, .alloc 64], ∀ r,
      requestsOnly {sz | 0 < sz ∧ sz < slabSize (slabMax - 1)} r e := by
    intro e he r
    simp only [List.mem_cons, List.not_mem_nil, or_false, or_self] at he
    subst he
    exact ⟨by omega, by omega⟩
  obtain ⟨r, hrun, hlive⟩ := GuardedRun.Run.exists_of_exec
    (fun r => r.live == [(0xffff803000000fc0 - 48, 64), (0xffff803000000fc0, 64)]) hguard
    (show (GuardedRun.exec (HeapRun.step openEnv) .init _).toOption.any _ = true by decide)
  have hdisj := (hsafe _ _ _ hrun).1
  rw [beq_iff_eq.mp hlive] at hdisj
  exact absurd hdisj (by decide)

/-! ## Freeing an allocation -/

/-- `mm_free` of the live allocation `a` passes its assertions, selects the slab that
served `a`, and puts `a` on the front of its free list, so that the next request of
the same size is served by `a` again. -/
def Freeable (env : HeapEnv) (r : HeapRun) (a : ℕ × ℕ) : Prop :=
  ∃ type l h', getSlabFromSize a.2 = .ok type ∧ getSlabFromAddress r.heap a.1 = .ok type ∧
    (r.heap.slabs type).freelist = some l ∧ mmFree r.heap a.1 = .ok h' ∧
    (h'.slabs type).freelist = some (a.1 :: l) ∧ ∃ h'', mmAlloc env h' a.2 = .ok (a.1, h'')

/-- **No allocation can be freed.**  In every reachable heap, for every live
allocation, `mm_free` trips `ASSERT(type < SLAB_MAX)`. -/
theorem not_freeable (env : HeapEnv) (es : List HeapEvent) (r : HeapRun)
    (hrun : GuardedRun.Run (HeapRun.step env) clientOk .init es r) (a : ℕ × ℕ)
    (ha : a ∈ r.live) :
    ¬ Freeable env r a ∧ mmFree r.heap a.1 = .error (.assertion "type < SLAB_MAX") := by
  obtain ⟨pages, chunks, hr⟩ := heapOk_of_run hrun
  have hfail := hr.mmFree ha
  refine ⟨?_, hfail⟩
  rintro ⟨type, l, h', -, -, -, hok, -⟩
  rw [hfail] at hok
  cases hok

/-- A run with one allocation of 48 bytes. -/
theorem exists_run_48 : ∃ r, GuardedRun.Run (HeapRun.step openEnv) clientOk .init
    [.alloc 48] r ∧ r.live = [(0xffff803000000fc0, 48)] := by
  have hguard : ∀ e ∈ [HeapEvent.alloc 48], ∀ r, clientOk r e := by
    intro e he r
    rw [List.mem_singleton] at he
    subst he
    exact Nat.succ_pos 47
  obtain ⟨r, hrun, hlive⟩ := GuardedRun.Run.exists_of_exec
    (fun r => r.live == [(0xffff803000000fc0, 48)]) hguard
    (show (GuardedRun.exec (HeapRun.step openEnv) .init _).toOption.any _ = true by decide)
  exact ⟨r, hrun, beq_iff_eq.mp hlive⟩

/-- The allocation of that run cannot be freed. -/
theorem not_freeable_48 : ∃ r, r.live = [(0xffff803000000fc0, 48)] ∧
    ¬ Freeable openEnv r (0xffff803000000fc0, 48) := by
  obtain ⟨r, hrun, hlive⟩ := exists_run_48
  refine ⟨r, hlive, (not_freeable openEnv _ r hrun (0xffff803000000fc0, 48) ?_).1⟩
  rw [hlive]
  exact List.mem_singleton_self _

/-- It is not true that everything that was allocated can be freed. -/
theorem not_forall_freeable :
    ¬ ∀ env es r, GuardedRun.Run (HeapRun.step env) clientOk .init es r →
      ∀ a ∈ r.live, Freeable env r a := by
  intro hall
  obtain ⟨r, hrun, hlive⟩ := exists_run_48
  obtain ⟨pages, chunks, hr⟩ := heapOk_of_run hrun
  have ha : (0xffff803000000fc0, 48) ∈ r.live := by
    rw [hlive]
    exact List.mem_singleton_self _
  obtain ⟨type, l, h', -, -, -, hok, -⟩ := hall _ _ _ hrun _ ha
  rw [hr.mmFree ha] at hok
  cases hok

/-! ## Allocations succeed -/

/-- `mm_map` has a page for the slab. -/
def PageAvailable (env : HeapEnv) (h : Heap) (type : ℕ) : Prop :=
  (mmMap env h type (pageAlignUp (h.slabs type).endAddr)).1 ≠ 0

/-- `mm_alloc` returns a chunk that was on the free list of the slab, grown if it was empty, and
leaves the free list a ring of chunks without it. -/
def Allocates (env : HeapEnv) (h : Heap) (sz : ℕ) : Prop :=
  ∃ type h₁ chunk rest h', getSlabFromSize sz = .ok type ∧
    ((h.slabs type).freelist ≠ some [] ∧ h₁ = h ∨
      (h.slabs type).freelist = some [] ∧ allocSlab env h type = .ok h₁) ∧
    (h₁.slabs type).freelist = some (chunk :: rest) ∧ mmAlloc env h sz = .ok (chunk, h') ∧
    chunk ≠ env.freelistHead type ∧ (h'.slabs type).freelist = some rest ∧ rest.Nodup ∧
    chunk ∉ rest ∧ env.freelistHead type ∉ rest ∧ ∀ t, t ≠ type → h'.slabs t = h₁.slabs t

/-- The class of the smallest requests is one before the first. -/
theorem getSlabFromSize_small {sz : ℕ} (hpos : 0 < sz) (hsz : sz ≤ 8) :
    getSlabFromSize sz = .error (.assertion "type < SLAB_MAX") := by
  have hall : ∀ n < 9, 0 < n → getSlabFromSize n = .error (.assertion "type < SLAB_MAX") := by
    decide
  exact hall sz (by omega) hpos

/-- All others that are less than a page have one. -/
theorem exists_getSlabFromSize {sz : ℕ} (h8 : 8 < sz) (hsz : sz < 2 ^ 12) :
    ∃ type, getSlabFromSize sz = .ok type := by
  by_cases h48 : sz ≤ 48
  · have hall : ∀ n < 49, 8 < n → (getSlabFromSize n).toOption.isSome = true := by decide
    obtain ⟨type, htype⟩ := Option.isSome_iff_exists.mp (hall sz (by omega) h8)
    refine ⟨type, ?_⟩
    cases hsize : getSlabFromSize sz with
    | error e =>
      rw [hsize] at htype
      cases htype
    | ok type' =>
      rw [hsize] at htype
      cases htype
      rfl
  · obtain ⟨n, hn, hlo, hhi⟩ := exists_two_pow_bound (by omega) hsz.le
    exact ⟨n - 3, getSlabFromSize_eq (by omega) hn hlo hhi⟩

/-- A slab grows when there is a page for it. -/
theorem exists_allocSlab {env : HeapEnv} {h : Heap} {type : ℕ} (ht : type < usedClasses)
    (hpage : PageAvailable env h type) : ∃ h₁, allocSlab env h type = .ok h₁ := by
  have hmax : type < slabMax := lt_trans ht (by decide)
  rcases hmap : mmMap env h type (pageAlignUp (h.slabs type).endAddr) with ⟨p, h₁⟩
  have hp : (p != 0) = true := by
    rw [PageAvailable, hmap] at hpage
    exact bne_iff_ne.mpr hpage
  rw [allocSlab, decide_eq_true hmax, assert_true]
  simp only [hmap, hp, assert_true, bind, Except.bind, pure, Except.pure, Except.ok.injEq,
    exists_eq']

/-- **When allocation succeeds.**  In every reachable heap, with a page for the slab where it has
to grow, `mm_alloc` of less than a page returns a chunk of the free list if and only if more than
8 bytes are requested. -/
theorem allocates_iff (env : HeapEnv) (es : List HeapEvent) (r : HeapRun)
    (hrun : GuardedRun.Run (HeapRun.step env) clientOk .init es r) (sz : ℕ) (hpos : 0 < sz)
    (hsz : sz < 2 ^ 12)
    (hhead : ∀ type, env.freelistHead type < layoutHeapStart ∨
      layoutVaddrStart ≤ env.freelistHead type)
    (hpages : ∀ type, getSlabFromSize sz = .ok type → (r.heap.slabs type).freelist = some [] →
      PageAvailable env r.heap type) : Allocates env r.heap sz ↔ 8 < sz := by
  constructor
  · rintro ⟨type, h₁, chunk, rest, h', hsize, -⟩
    by_contra hsmall
    rw [getSlabFromSize_small hpos (by omega)] at hsize
    cases hsize
  · intro h8
    obtain ⟨pages, chunks, hr⟩ := heapOk_of_run hrun
    obtain ⟨type, hsize⟩ := exists_getSlabFromSize h8 hsz
    have ht := getSlabFromSize_lt hpos hsz hsize
    have hmax : slabSize (slabMax - 1) = 2 ^ 12 := by decide
    -- the heap in which the chunk is taken
    obtain ⟨h₁, hgrow, hrun₁, ⟨pages', chunks', hr₁⟩, chunk, rest, hfree⟩ : ∃ h₁,
        ((r.heap.slabs type).freelist ≠ some [] ∧ h₁ = r.heap ∨
          (r.heap.slabs type).freelist = some [] ∧ allocSlab env r.heap type = .ok h₁) ∧
        mmAlloc env r.heap sz = popChunk env h₁ type ∧
        (∃ pages chunks, HeapOk { heap := h₁, live := r.live } pages chunks) ∧
        ∃ c l, (h₁.slabs type).freelist = some (c :: l) := by
      by_cases hempty : (r.heap.slabs type).freelist = some []
      · obtain ⟨h₁, hgrow⟩ := exists_allocSlab ht (hpages type hsize hempty)
        refine ⟨h₁, .inr ⟨hempty, hgrow⟩, ?_, hr.grow ht hempty hgrow⟩
        rw [mmAlloc, hmax, decide_eq_true hsz, assert_true, hsize]
        simp only [bind, Except.bind, if_pos hempty, hgrow]
      · obtain ⟨l, hl, -⟩ := (hr.slab type ht).free
        obtain ⟨c, l, rfl⟩ := List.exists_cons_of_ne_nil fun hnil => hempty (hnil ▸ hl)
        refine ⟨r.heap, .inl ⟨hempty, rfl⟩, ?_, ⟨pages, chunks, hr⟩, c, l, hl⟩
        rw [mmAlloc, hmax, decide_eq_true hsz, assert_true, hsize]
        simp only [bind, Except.bind, if_neg hempty, pure, Except.pure]
    obtain ⟨_, hl, hnodup, hcarved⟩ := (hr₁.slab type ht).free
    rw [hfree] at hl
    cases hl
    rw [List.nodup_cons] at hnodup
    have hout : env.freelistHead type ∉ chunk :: rest := by
      intro hmem
      obtain ⟨k, hk, heq⟩ := hcarved _ hmem
      obtain ⟨hlo, hhi⟩ := (hr₁.slab type ht).chunk_bounds ht hk
      have := hhead type
      omega
    rw [List.mem_cons, not_or] at hout
    refine ⟨type, h₁, chunk, rest, h₁.setSlab type { h₁.slabs type with freelist := some rest },
      hsize, hgrow, hfree, ?_, Ne.symm hout.1, ?_, hnodup.2, hnodup.1, hout.2, fun t htne => ?_⟩
    · rw [hrun₁, popChunk, hfree]
    · rw [Heap.setSlab_same]
    · exact Heap.setSlab_of_ne _ _ htne

/-- A fresh heap has a chunk for a request of 9 bytes. -/
theorem allocates_nine : Allocates openEnv mmInit 9 := by
  refine (allocates_iff openEnv [] .init (.nil _) 9 (by decide) (by decide)
    (fun _ => .inl (show 0 < layoutHeapStart by decide)) fun type hsize _ => ?_).mpr (by decide)
  have htype : getSlabFromSize 9 = .ok 0 := by decide
  rw [htype] at hsize
  cases hsize
  rw [PageAvailable]
  decide

/-- **It has none for a request of 8 bytes.** -/
theorem not_allocates_eight : ¬ Allocates openEnv mmInit 8 := by
  rintro ⟨type, h₁, chunk, rest, h', hsize, -⟩
  rw [getSlabFromSize_small (by decide) (by decide)] at hsize
  cases hsize

end Mimik.SlabHeap
