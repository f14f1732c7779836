/-
# What `vm_map_pages` does

The search leaves four indices, and `recurse_map` goes on from there.  From the indices of
entries it maps pages, in the order of the visits (`MapEffect`); from behind the end of a
table it maps none, but makes entries above the leaf tables (`InnerEffect`).  Together this is
all that a call can do that returns (`vmMapPages_returned`, `recurseMap_ran`).
-/
import Mimik.VmRefused
import Mimik.VmSearch
import Mimik.VmSpent

namespace Mimik.Vm

open FaultState

variable {flags : Flags} {root p tmpPaddr paddrStart : PAddr} {mem mem' : Tables}
  {index : List ℕ} {fuel pages vaddrHint height : ℕ} {t t' : FlatState}

/-! ## The indices -/

/-- The indices below stay as many, if a round leaves them as many. -/
theorem nextFreeEntry_length
    {scan : Search → Prog Fault FlatState (FaultState.Flow Search (Option Status × Search))} {n : ℕ}
    (hscan : ∀ v, Triple (fun _ => v.below.length = n) (scan v)
      (Flow.post (fun v _ => v.below.length = n)
        fun (r : Option Status × Search) _ => r.2.below.length = n))
    (p : PAddr) (fuel i : ℕ) (below : List ℕ) (hbelow : below.length = n) :
    Triple (fun _ => True)
      (nextFreeEntry (flat tmpPaddr) scan p height paddrStart pages flags fuel i below)
      fun r _ => r.2.length = n + 1 := by
  induction fuel generalizing i below with
  | zero => exact Triple.fault _
  | succ fuel ih =>
    apply Triple.bind (Q := fun (r : Option Status × Search) _ => r.2.below.length = n)
    · have hrounds : ∀ v : Search, Triple (fun _ : FlatState => v.below.length = n)
          (rounds scan (fun v => return (none, v)) ptLength v)
          fun (r : Option Status × Search) _ => r.2.below.length = n := by
        intro v
        apply Triple.rounds fun _ (v : Search) _ => v.below.length = n
        · exact fun _ v => hscan v
        · exact fun _ => Triple.pure fun _ hv => hv
      exact (hrounds _).mono (fun _ _ => hbelow) fun _ _ hr => hr
    · rintro ⟨ret, v⟩
      have hend : ∀ res : Status, Triple (fun _ : FlatState => v.below.length = n)
          (pure (res, v.index :: v.below) : Prog Fault FlatState (Status × List ℕ))
          fun r _ => r.2.length = n + 1 := by
        intro res
        apply Triple.pure
        intro _ hv
        rw [List.length_cons, hv]
      cases ret with
      | some res => exact hend res
      | none =>
        apply Triple.ite
        · exact fun _ => hend _
        · intro _
          apply Triple.bind (Q := fun _ _ => v.below.length = n)
          · exact Keeps.rounds (keeps_countFree (flat_lookKeeps _) p height pages flags)
              (fun _ => Keeps.pure _) ptLength _
          · rintro ⟨j, found⟩
            apply Triple.ite
            · intro _
              apply Triple.ite
              · exact fun _ => hend _
              · intro _
                constructor
                intro t hv
                exact (ih j v.below hv).run t trivial
            · exact fun _ => hend _

/-- The indices that the search leaves are as many as it was given. -/
theorem findSpace_length (index : List ℕ) (hlen : index.length = height + 1) (p : PAddr) :
    Triple (fun _ => True) (findSpace (flat tmpPaddr) fuel paddrStart pages flags height index p)
      fun r _ => r.2.length = height + 1 := by
  have htail : index.tail.length = height := by rw [List.length_tail, hlen, Nat.add_sub_cancel]
  induction height generalizing index p with
  | zero =>
    refine nextFreeEntry_length (fun v => ?_) p fuel (index.headD 0) index.tail htail
    apply Triple.ite
    · intro _
      apply Triple.bind (Q := fun _ _ => v.below.length = 0) (flat_read p v.i fun _ h => h)
      intro e
      apply Triple.pure
      intro _ hv
      split_ifs <;> exact hv
    · exact fun _ => Triple.pure fun _ hv => hv
  | succ height ih =>
    refine nextFreeEntry_length (fun v => ?_) p fuel (index.headD 0) index.tail htail
    apply Triple.ite
    · intro _
      apply Triple.bind (Q := fun _ _ => v.below.length = height + 1)
        (flat_read p v.i fun _ h => h)
      intro e
      apply Triple.ite
      · intro _
        apply Triple.bind (Q := fun _ _ => v.below.length = height + 1)
          (flat_read p v.index fun _ h => h)
        intro parent
        apply Triple.bind (Q := fun (r : Status × List ℕ) _ => r.2.length = height + 1)
        · refine flat_withTable _ fun _ => ?_
          constructor
          intro t hv
          exact (ih v.below hv _ (by rw [List.length_tail, hv, Nat.add_sub_cancel])).run t trivial
        · rintro ⟨res, below⟩
          apply Triple.pure
          intro _ hbelow
          unfold Search.afterChild
          split_ifs <;> exact hbelow
      · exact fun _ => Triple.pure fun _ hv => hv
    · exact fun _ => Triple.pure fun _ hv => hv

/-! ## The mapping -/

/-- The ways to the paths that are visited. -/
theorem MapEffect.innerEffect {L : List (List ℕ)} {k : ℕ}
    (h : MapEffect flags root paddrStart L k pages mem mem') :
    InnerEffect flags root root ((visitedPaths mem root L pages).map List.dropLast) mem mem' where
  extended := h.extended
  given u hu := by
    obtain ⟨path, hpath, rfl⟩ := List.mem_map.mp hu
    exact h.allSet path hpath
  changed n hn q hq i hi hne := by
    obtain ⟨path, hpath, hslot⟩ := h.changed n hn q hq i hi hne
    exact ⟨path.dropLast, List.mem_map_of_mem hpath, hslot⟩

/-- What `recurse_map` leaves, from the indices `index` on. -/
inductive MapRan (flags : Flags) (root paddr : PAddr) (index : List ℕ) (pages : ℕ)
    (mem mem' : Tables) : Prop where
  /-- From the indices of entries: pages are mapped in the order of the visits. -/
  | within (hidx : ∀ i ∈ index, i < ptLength)
      (h : MapEffect flags root paddr (Radix.box 512 index) 0 pages mem mem')
  /-- From behind the end of a table: no page is mapped. -/
  | behind (hspent : ∃ i ∈ index, ptLength ≤ i)
      (h : InnerEffect flags root root (Radix.box 512 (front index)) mem mem')
      (hsame : SameLeaves root mem mem')

/-- `recurse_map` from any indices, when it returns. -/
theorem recurseMap_ran (h : Sound tmpPaddr root t) (hlen : index.length = 4)
    (hpages : 0 < pages) {res : Status} {w : MapVars}
    (hok : recurseMap (flat tmpPaddr) flags 3 index root paddrStart pages t = .ok ((res, w), t')) :
    Visited tmpPaddr root 0 t t' ∧ MapRan flags root paddrStart index pages t.mem t'.mem := by
  by_cases hidx : ∀ i ∈ index, i < ptLength
  · have hran := recurseMap_eq flags 3 le_rfl index hlen hidx root paddrStart pages t h .root
    cases hv : visitAll flags root (Radix.box 512 index) paddrStart pages t with
    | none =>
      rw [hv] at hran
      rw [show recurseMap (flat tmpPaddr) flags 3 index root paddrStart pages t = .error swapped
        from hran] at hok
      cases hok
    | some r =>
      rw [hv] at hran
      obtain ⟨i, hran⟩ := hran
      rw [hran] at hok
      cases hok
      have hbox : ∀ path ∈ Radix.box 512 index, IsPath path := by
        intro path hpath
        obtain ⟨hpathlen, hwidth⟩ := Radix.of_mem_box hpath
        exact ⟨hpathlen.trans hlen, hwidth⟩
      refine ⟨h.visitAll .root (by decide) (fun path hpath => ?_) hv, ?_⟩
      · obtain ⟨hpathlen, hwidth⟩ := hbox path hpath
        exact ⟨by rw [hpathlen], hwidth⟩
      · have hpaddr : paddrStart = paddrStart + BitVec.ofNat 64 (0 * pageSize) := by simp
        rw [hpaddr] at hv
        exact .within hidx (h.visitAll_effect hbox hv)
  · simp only [not_forall, Nat.not_lt, exists_prop] at hidx
    have hran : Spent tmpPaddr root flags root 0 pages (Radix.box 512 (front index)) t
        (recurseMap (flat tmpPaddr) flags 3 index root paddrStart pages t) :=
      recurseMap_spent 3 le_rfl index hlen hidx root paddrStart hpages t h .root
    rcases hran with hfault | ⟨_, _, hran, -, hvis, heff, hsame⟩
    · rw [hfault] at hok
      cases hok
    · rw [hran] at hok
      cases hok
      exact ⟨hvis, .behind hidx heff hsame⟩

/-- The ways to the entries that `recurse_map` fills from the indices on; from behind the end of a
table, to the entries that it comes to. -/
def fillWays (mem : Tables) (root : PAddr) (index : List ℕ) (pages : ℕ) : List (List ℕ) :=
  if ∀ i ∈ index, i < ptLength then
    (visitedPaths mem root (Radix.box 512 index) pages).map List.dropLast
  else Radix.box 512 (front index)

/-- They lead to entries above the leaf tables. -/
theorem above_fillWays (hlen : index.length = 4) : Above 0 (fillWays mem root index pages) := by
  intro u hu
  unfold fillWays at hu
  split at hu
  next =>
    obtain ⟨path, hpath, rfl⟩ := List.mem_map.mp hu
    obtain ⟨hpathlen, hwidth⟩ := Radix.of_mem_box (Handout.gone_subset hpath)
    refine ⟨?_, fun i hi => hwidth i (List.mem_of_mem_dropLast hi)⟩
    rw [List.length_dropLast, hpathlen, hlen]
  next hspent =>
    simp only [not_forall, Nat.not_lt] at hspent
    obtain ⟨i, hi, hle⟩ := hspent
    obtain ⟨hulen, hwidth⟩ := Radix.of_mem_box hu
    have := length_front ⟨i, hi, hle⟩
    exact ⟨by omega, hwidth⟩

/-- What was done to the entries above the leaf tables. -/
theorem MapRan.innerEffect (h : MapRan flags root paddrStart index pages mem mem') :
    InnerEffect flags root root (fillWays mem root index pages) mem mem' := by
  unfold fillWays
  cases h with
  | within hidx h =>
    rw [if_pos hidx]
    exact h.innerEffect
  | behind hspent h _ =>
    obtain ⟨i, hi, hle⟩ := hspent
    rw [if_neg fun hidx => absurd (hidx i hi) (Nat.not_lt.mpr hle)]
    exact h

/-- **What `vm_map_pages` does**: it maps where the search has found entries enough, and without
them it does nothing. -/
theorem vmMapPages_returned {res : Status} {v : ℕ}
    (hok : vmMapPages (flat tmpPaddr) fuel root paddrStart pages vaddrHint flags t =
      .ok ((res, v), t')) :
    0 < pages ∧
    ((isError res = true ∧ t' = t ∧
        ∀ index, ¬ SearchFinds t.mem root paddrStart pages vaddrHint flags index) ∨
      isError res = false ∧ ∃ index w, index.length = 4 ∧
        (∀ index', SearchFinds t.mem root paddrStart pages vaddrHint flags index' ↔
          index' = index) ∧ v = hintOf vaddrHint index ∧
        recurseMap (flat tmpPaddr) flags 3 index root paddrStart pages t =
          .ok ((success, w), t')) := by
  obtain ⟨_, t₁, hcheck, hok⟩ := bind_eq_ok_iff.mp hok
  obtain ⟨_, t₂, hcheck', hok⟩ := bind_eq_ok_iff.mp hok
  obtain ⟨_, t₃, hcheck'', hok⟩ := bind_eq_ok_iff.mp hok
  have hpages : 0 < pages := of_decide_eq_true (check_eq_ok_iff.mp hcheck'').1
  rw [(check_eq_ok_iff.mp hcheck'').2, (check_eq_ok_iff.mp hcheck').2,
    (check_eq_ok_iff.mp hcheck).2] at hok
  obtain ⟨⟨found, index⟩, t₄, hfind, hok⟩ := bind_eq_ok_iff.mp hok
  have hsame : t₄ = t := (flat_findSpace (P := fun u => u = t) fuel paddrStart pages flags 3
    (indices vaddrHint) root).run t rfl _ _ hfind
  have hlen : index.length = 4 :=
    (findSpace_length (indices vaddrHint) rfl root).run _ trivial _ _ hfind
  rw [hsame] at hfind hok
  refine ⟨hpages, ?_⟩
  have hreturns : ∀ {index'}, SearchFinds t.mem root paddrStart pages vaddrHint flags index' →
      isError found = false ∧ index' = index := by
    intro index' hfinds
    obtain ⟨n, heq⟩ := hfinds.returns hpages hfind
    cases heq
    exact ⟨isError_natCast n, rfl⟩
  cases hfound : isError found with
  | true =>
    replace hok : (if isError found = true then _ else _ : Prog Fault FlatState (Status × ℕ)) t =
      .ok ((res, v), t') := hok
    rw [if_pos hfound] at hok
    obtain ⟨heq, ht⟩ := pure_eq_ok_iff.mp hok
    rw [Prod.mk.injEq] at heq
    refine .inl ⟨by rw [heq.1, hfound], ht, fun index' hfinds => ?_⟩
    rw [(hreturns hfinds).1] at hfound
    cases hfound
  | false =>
    replace hok : (if isError found = true then _ else _ : Prog Fault FlatState (Status × ℕ)) t =
      .ok ((res, v), t') := hok
    rw [if_neg (by rw [hfound]; exact Bool.false_ne_true)] at hok
    obtain ⟨⟨res', w⟩, t₅, hmap, hok⟩ := bind_eq_ok_iff.mp hok
    have hres : res' = success := (recurseMap_success 3 index root paddrStart pages).run t trivial
      _ _ hmap
    subst hres
    obtain ⟨heq, ht⟩ := pure_eq_ok_iff.mp hok
    rw [Prod.mk.injEq] at heq
    rw [ht]
    refine .inr ⟨by rw [heq.1]; rfl, index, w, hlen, fun index' => ?_, heq.2, hmap⟩
    constructor
    · exact fun hfinds => (hreturns hfinds).2
    · rintro rfl
      exact searchFinds_of_returns hpages hfind hfound

end Mimik.Vm
