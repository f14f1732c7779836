/-
# What a call does to the pages it does not name

An entry above the leaf tables is shared by all pages below it.  `vm_map_pages` and
`vm_flag_pages` give the permissions that they are asked for to every such entry that they
pass, and with them to every page behind it.

A page that is not named keeps its permissions in one case: those entries of its walk that are
rewritten do not decide them (`Indifferent`), since another entry of the walk does, or since
they have what is asked for already (`neighbours_kept_iff`).
-/
import Mimik.VmCut
import Mimik.VmStale

namespace Mimik.Vm

open FaultState

variable {flags : Flags} {root p tmpPaddr paddrStart : PAddr} {mem mem' : Tables}
  {path u index : List ℕ} {inner leaf : PAddr × ℕ → Prop} {slots : List (PAddr × ℕ)} {e : Pte}
  {fuel pages vaddrHint height : ℕ} {t t' : FlatState}

/-! ## The permissions of a walk that is rewritten -/

/-- Some entries of a walk are rewritten, as entries above the leaf tables or as leaf entries. -/
structure Rewritten (flags : Flags) (inner leaf : PAddr × ℕ → Prop) (mem mem' : Tables)
    (slots : List (PAddr × ℕ)) : Prop where
  onInner : ∀ x ∈ slots, inner x → mem' x.1 x.2 = reflag (mem x.1 x.2) flags
  onLeaf : ∀ x ∈ slots, leaf x → mem' x.1 x.2 = setPte (ptePaddr (mem x.1 x.2)) flags
  other : ∀ x ∈ slots, ¬ inner x → ¬ leaf x → mem' x.1 x.2 = mem x.1 x.2

/-- The entries that are rewritten do not decide the permissions of a walk: where the other
entries leave it open what the page allows, those entries say what the flags ask for. -/
structure Indifferent (flags : Flags) (inner leaf : PAddr × ℕ → Prop) (mem : Tables)
    (slots : List (PAddr × ℕ)) : Prop where
  writable : (∀ x ∈ slots, ¬ (inner x ∨ leaf x) → writable (mem x.1 x.2) = true) →
    ((∀ x ∈ slots, inner x ∨ leaf x → isFlagSet flags vmFlagWritable = true) ↔
      ∀ x ∈ slots, inner x ∨ leaf x → Vm.writable (mem x.1 x.2) = true)
  user : (∀ x ∈ slots, ¬ (inner x ∨ leaf x) → userAccessible (mem x.1 x.2) = true) →
    ((∀ x ∈ slots, inner x ∨ leaf x → isFlagSet flags vmFlagUser = true) ↔
      ∀ x ∈ slots, inner x ∨ leaf x → userAccessible (mem x.1 x.2) = true)
  noExecute : (∀ x ∈ slots, ¬ (inner x ∨ leaf x) → noExecute (mem x.1 x.2) = false) →
    ((∀ x ∈ slots, leaf x → isFlagUnset flags vmFlagExecutable = false) ↔
      ∀ x ∈ slots, inner x ∨ leaf x → Vm.noExecute (mem x.1 x.2) = false)

/-- A conjunction over a list, when some of its parts are replaced. -/
theorem forall_replaced_iff {α : Type*} {l : List α} {c f f' : α → Prop}
    (hother : ∀ x ∈ l, ¬ c x → (f' x ↔ f x)) :
    ((∀ x ∈ l, f' x) ↔ ∀ x ∈ l, f x) ↔
      ((∀ x ∈ l, ¬ c x → f x) → ((∀ x ∈ l, c x → f' x) ↔ ∀ x ∈ l, c x → f x)) := by
  have hsplit : ∀ g : α → Prop, (∀ x ∈ l, g x) ↔
      (∀ x ∈ l, c x → g x) ∧ ∀ x ∈ l, ¬ c x → g x := by
    intro g
    constructor
    · exact fun h => ⟨fun x hx _ => h x hx, fun x hx _ => h x hx⟩
    · rintro ⟨hc, hnot⟩ x hx
      by_cases hcx : c x
      · exact hc x hx hcx
      · exact hnot x hx hcx
  have hsame : (∀ x ∈ l, ¬ c x → f' x) ↔ ∀ x ∈ l, ¬ c x → f x :=
    forall₂_congr fun x hx => imp_congr_right fun hcx => hother x hx hcx
  rw [hsplit f', hsplit f, hsame]
  exact and_congr_left_iff

/-- Presence and targets stay. -/
theorem Rewritten.shape (h : Rewritten flags inner leaf mem mem' slots)
    (hpres : ∀ x ∈ slots, present (mem x.1 x.2) = true) {x : PAddr × ℕ} (hx : x ∈ slots) :
    present (mem' x.1 x.2) = true ∧ ptePaddr (mem' x.1 x.2) = ptePaddr (mem x.1 x.2) := by
  by_cases hleaf : leaf x
  · rw [h.onLeaf x hx hleaf]
    exact ⟨present_setPte _ _, (ptePaddr_setPte _ _).trans (ptePaddr_ptePaddr _)⟩
  · by_cases hinner : inner x
    · rw [h.onInner x hx hinner, present_reflag, ptePaddr_reflag]
      exact ⟨hpres x hx, rfl⟩
    · rw [h.other x hx hinner hleaf]
      exact ⟨hpres x hx, rfl⟩

/-- A walk over present entries whose targets stay has the same places. -/
theorem slots_of_shape (h : ∀ x ∈ pageTables.slots mem p path, present (mem x.1 x.2) = true ∧
      present (mem' x.1 x.2) = true ∧ ptePaddr (mem' x.1 x.2) = ptePaddr (mem x.1 x.2)) :
    pageTables.slots mem' p path = pageTables.slots mem p path := by
  induction path generalizing p with
  | nil => rfl
  | cons i path ih =>
    have hfirst := h (p, i) (by rw [Radix.slots]; exact List.mem_cons_self)
    have hpres : pageTables.present (mem p i) = true := hfirst.1
    have hpres' : pageTables.present (mem' p i) = true := hfirst.2.1
    have hnext : pageTables.next (mem' p i) = pageTables.next (mem p i) := hfirst.2.2
    have hrest : ∀ x ∈ pageTables.slots mem (pageTables.next (mem p i)) path,
        x ∈ pageTables.slots mem p (i :: path) := by
      intro x hx
      rw [Radix.slots, if_pos hpres]
      exact List.mem_cons_of_mem _ hx
    rw [Radix.slots, Radix.slots, if_pos hpres, if_pos hpres', hnext,
      ih fun x hx => h x (hrest x hx)]

/-- When those above the leaf tables stay, it comes to the same leaf entry. -/
theorem leafSlot_of_shape (h : ∀ x ∈ pageTables.slots mem p path.dropLast,
      present (mem x.1 x.2) = true ∧ present (mem' x.1 x.2) = true ∧
        ptePaddr (mem' x.1 x.2) = ptePaddr (mem x.1 x.2)) :
    pageTables.leafSlot mem' p path = pageTables.leafSlot mem p path := by
  induction path generalizing p with
  | nil => rfl
  | cons i path ih =>
    by_cases hpath : path = []
    · subst hpath
      rfl
    · rw [List.dropLast_cons_of_ne_nil hpath] at h
      have hfirst := h (p, i) (by rw [Radix.slots]; exact List.mem_cons_self)
      have hpres : pageTables.present (mem p i) = true := hfirst.1
      have hpres' : pageTables.present (mem' p i) = true := hfirst.2.1
      have hnext : pageTables.next (mem' p i) = pageTables.next (mem p i) := hfirst.2.2
      have hrest : ∀ x ∈ pageTables.slots mem (pageTables.next (mem p i)) path.dropLast,
          x ∈ pageTables.slots mem p (i :: path.dropLast) := by
        intro x hx
        rw [Radix.slots, if_pos hpres]
        exact List.mem_cons_of_mem _ hx
      rw [Radix.leafSlot_cons hpath, Radix.leafSlot_cons hpath, if_pos hpres, if_pos hpres', hnext,
        ih fun x hx => h x (hrest x hx)]

/-- The places above the leaf tables are places of the walk. -/
theorem mem_slots_of_dropLast (hleaf : pageTables.leaf mem root path = some e) {x : PAddr × ℕ}
    (hx : x ∈ pageTables.slots mem root path.dropLast) : x ∈ pageTables.slots mem root path := by
  obtain ⟨last, hlast, -⟩ := Radix.leaf_eq_some_iff.mp hleaf
  rw [Radix.slots_eq_append hlast]
  exact List.mem_append_left _ hx

/-- **The permissions of a walk** that is rewritten are what they were if and only if the
entries that are rewritten do not decide them. -/
theorem walkPerms_rewritten_iff
    (h : Rewritten flags inner leaf mem mem' (pageTables.slots mem root path))
    (hleaf : pageTables.leaf mem root path = some e) :
    walkPerms mem' root path = walkPerms mem root path ↔
      Indifferent flags inner leaf mem (pageTables.slots mem root path) := by
  have hpres : ∀ x ∈ pageTables.slots mem root path, present (mem x.1 x.2) = true :=
    fun x hx => Radix.present_of_mem_slots hleaf hx
  have hslots := slots_of_shape fun x hx => ⟨hpres x hx, h.shape hpres hx⟩
  have hslot : pageTables.leafSlot mem' root path = pageTables.leafSlot mem root path := by
    refine leafSlot_of_shape fun x hx => ?_
    have hx' := mem_slots_of_dropLast hleaf hx
    exact ⟨hpres x hx', h.shape hpres hx'⟩
  obtain ⟨last, hlast, -, -⟩ := Radix.leaf_eq_some_iff.mp hleaf
  have hleaf' : pageTables.leaf mem' root path = some (mem' last.1 last.2) := by
    refine Radix.leaf_eq_some_iff.mpr ⟨last, hslot.trans hlast, ?_, rfl⟩
    exact (h.shape hpres (Radix.mem_slots_of_leafSlot hlast)).1
  -- what the entries that are rewritten say
  have hasked : ∀ x ∈ pageTables.slots mem root path, inner x ∨ leaf x →
      Vm.writable (mem' x.1 x.2) = isFlagSet flags vmFlagWritable ∧
        userAccessible (mem' x.1 x.2) = isFlagSet flags vmFlagUser ∧
        (leaf x → Vm.noExecute (mem' x.1 x.2) = isFlagUnset flags vmFlagExecutable) ∧
        (¬ leaf x → Vm.noExecute (mem' x.1 x.2) = false) := by
    intro x hx hc
    by_cases hl : leaf x
    · rw [h.onLeaf x hx hl]
      exact ⟨writable_setPte _ _, userAccessible_setPte _ _, fun _ => noExecute_setPte _ _,
        fun hnot => absurd hl hnot⟩
    · rw [h.onInner x hx (hc.resolve_right hl)]
      exact ⟨writable_reflag _ _, userAccessible_reflag _ _, fun hl' => absurd hl' hl,
        fun _ => noExecute_reflag _ _⟩
  have hother : ∀ x ∈ pageTables.slots mem root path, ¬ (inner x ∨ leaf x) →
      mem' x.1 x.2 = mem x.1 x.2 := fun x hx hc =>
    h.other x hx (fun hi => hc (Or.inl hi)) fun hl => hc (Or.inr hl)
  have hall : ∀ {f f' : PAddr × ℕ → Bool}, (pageTables.slots mem root path).all f' =
      (pageTables.slots mem root path).all f ↔
        ((∀ x ∈ pageTables.slots mem root path, f' x = true) ↔
          ∀ x ∈ pageTables.slots mem root path, f x = true) := by
    intro f f'
    rw [Bool.eq_iff_iff, List.all_eq_true, List.all_eq_true]
  have hany : ∀ {f f' : PAddr × ℕ → Bool}, (pageTables.slots mem root path).any f' =
      (pageTables.slots mem root path).any f ↔
        ((∀ x ∈ pageTables.slots mem root path, f' x = false) ↔
          ∀ x ∈ pageTables.slots mem root path, f x = false) := by
    intro f f'
    have hfalse : ∀ g : PAddr × ℕ → Bool, (pageTables.slots mem root path).any g = false ↔
        ∀ x ∈ pageTables.slots mem root path, g x = false := by
      intro g
      rw [List.any_eq_false]
      exact forall₂_congr fun x _ => Bool.not_eq_true _ ▸ Iff.rfl
    rw [← hfalse, ← hfalse]
    generalize (pageTables.slots mem root path).any f' = x
    generalize (pageTables.slots mem root path).any f = y
    revert x y
    decide
  have hreplaced : ∀ g : Pte → Prop, ((∀ x ∈ pageTables.slots mem root path, g (mem' x.1 x.2)) ↔
      ∀ x ∈ pageTables.slots mem root path, g (mem x.1 x.2)) ↔
      ((∀ x ∈ pageTables.slots mem root path, ¬ (inner x ∨ leaf x) → g (mem x.1 x.2)) →
        ((∀ x ∈ pageTables.slots mem root path, inner x ∨ leaf x → g (mem' x.1 x.2)) ↔
          ∀ x ∈ pageTables.slots mem root path, inner x ∨ leaf x → g (mem x.1 x.2))) :=
    fun g => forall_replaced_iff fun x hx hc => by rw [hother x hx hc]
  have hwritable : (∀ x ∈ pageTables.slots mem root path, inner x ∨ leaf x →
        Vm.writable (mem' x.1 x.2) = true) ↔ ∀ x ∈ pageTables.slots mem root path,
        inner x ∨ leaf x → isFlagSet flags vmFlagWritable = true :=
    forall₂_congr fun x hx => forall_congr' fun hc => by rw [(hasked x hx hc).1]
  have huser : (∀ x ∈ pageTables.slots mem root path, inner x ∨ leaf x →
        userAccessible (mem' x.1 x.2) = true) ↔ ∀ x ∈ pageTables.slots mem root path,
        inner x ∨ leaf x → isFlagSet flags vmFlagUser = true :=
    forall₂_congr fun x hx => forall_congr' fun hc => by rw [(hasked x hx hc).2.1]
  have hexecute : (∀ x ∈ pageTables.slots mem root path, inner x ∨ leaf x →
        Vm.noExecute (mem' x.1 x.2) = false) ↔ ∀ x ∈ pageTables.slots mem root path,
        leaf x → isFlagUnset flags vmFlagExecutable = false := by
    refine forall₂_congr fun x hx => ?_
    constructor
    · intro hc hl
      rw [← (hasked x hx (Or.inr hl)).2.2.1 hl]
      exact hc (Or.inr hl)
    · intro hl hc
      by_cases hleafx : leaf x
      · rw [(hasked x hx hc).2.2.1 hleafx]
        exact hl hleafx
      · exact (hasked x hx hc).2.2.2 hleafx
  rw [walkPerms, walkPerms, hleaf', hleaf, Option.map_some, Option.map_some, hslots,
    Option.some.injEq, Perms.mk.injEq, hall, hall, hany,
    hreplaced fun e => Vm.writable e = true, hreplaced fun e => userAccessible e = true,
    hreplaced fun e => Vm.noExecute e = false, hwritable, huser, hexecute]
  exact ⟨fun h => ⟨h.1, h.2.1, h.2.2⟩, fun h => ⟨h.writable, h.user, h.noExecute⟩⟩

/-! ## The calls -/

/-- The calls that give permissions to pages. -/
inductive PermCall where
  | mapPages (fuel : ℕ) (paddrStart : PAddr) (pages vaddrHint : ℕ) (flags : Flags)
  | flagPages (vaddrStart pages : ℕ) (flags : Flags)

namespace PermCall

/-- The call, with the address from which on pages are mapped or flagged. -/
def run {σ π : Type} (M : Machine σ π) (table : π) : PermCall → Prog Fault σ (Status × ℕ)
  | mapPages fuel paddrStart pages vaddrHint flags =>
    vmMapPages M fuel table paddrStart pages vaddrHint flags
  | flagPages vaddrStart pages flags => do
    let res ← vmFlagPages M table vaddrStart pages flags
    return (res, vaddrStart)

/-- The call, without what it returns. -/
def toVmCall : PermCall → VmCall
  | mapPages fuel paddrStart pages vaddrHint flags =>
    .mapPages fuel paddrStart pages vaddrHint flags
  | flagPages vaddrStart pages flags => .flagPages vaddrStart pages flags

/-- The flags of a call. -/
def askedFlags : PermCall → Flags
  | mapPages _ _ _ _ flags => flags
  | flagPages _ _ flags => flags

/-- The pages that a call with the result `r` maps or flags: none, when mapping fails. -/
def Names (r : Status × ℕ) (u : ℕ) : PermCall → Prop
  | mapPages _ _ pages _ _ => isError r.1 = false ∧ ∃ k < pages, u = r.2 + k * pageSize
  | flagPages vaddrStart pages _ => ∃ k < pages, u = vaddrStart + k * pageSize

/-- The same pages, from the state before the call. -/
def WillName (root : PAddr) (s : VmState) (u : ℕ) : PermCall → Prop
  | mapPages _ paddrStart pages vaddrHint flags => ∃ index,
    SearchFinds s.mem root paddrStart pages vaddrHint flags index ∧
      ∃ k < pages, u = hintOf vaddrHint index + k * pageSize
  | flagPages vaddrStart pages _ => ∃ k < pages, u = vaddrStart + k * pageSize

/-- The entries above the leaf tables that a call passes. -/
def Passes (tmpPaddr root : PAddr) (s : VmState) : PermCall → PAddr × ℕ → Prop
  | mapPages _ paddrStart pages vaddrHint flags => fun x => ∃ index,
    SearchFinds s.mem root paddrStart pages vaddrHint flags index ∧
      PassedFrom (s.tables tmpPaddr) root index pages x
  | flagPages vaddrStart pages _ => InnerOf (s.tables tmpPaddr) root
    (flagReached tmpPaddr root s vaddrStart pages)

/-- The leaf entries of mapped pages that a call comes to. -/
def Reflags (tmpPaddr root : PAddr) (s : VmState) : PermCall → PAddr × ℕ → Prop
  | mapPages _ _ _ _ _ => fun _ => False
  | flagPages vaddrStart pages _ => LeafOf (s.tables tmpPaddr) root
    (flagReached tmpPaddr root s vaddrStart pages)

end PermCall

variable {s s' : VmState} {c : PermCall} {r : Status × ℕ}

/-- **Permissions of neighbours are untouched**: every mapped page that the call does not map or
flag has the permissions that it had. -/
def NeighboursKept (tmpPaddr root : PAddr) (s : VmState) (c : PermCall) (r : Status × ℕ)
    (s' : VmState) : Prop :=
  ∀ u, IsPage u → ¬ c.Names r u → ∀ perms, s.perms tmpPaddr root u = some perms →
    s'.perms tmpPaddr root u = some perms

/-- The entries that the call rewrites do not decide the permissions of another page. -/
def SparesNeighbours (tmpPaddr root : PAddr) (s : VmState) (c : PermCall) : Prop :=
  ∀ u, IsPage u → ¬ c.WillName root s u → s.leaf tmpPaddr root u ≠ none →
    Indifferent c.askedFlags (c.Passes tmpPaddr root s) (c.Reflags tmpPaddr root s)
      (s.tables tmpPaddr) (pageTables.slots (s.tables tmpPaddr) root (indices u))

/-- From the walks of mapped pages to their permissions. -/
theorem neighboursKept_iff_of_rewritten (hnames : ∀ u, c.Names r u ↔ c.WillName root s u)
    (h : ∀ u e, s.leaf tmpPaddr root u = some e →
      Rewritten c.askedFlags (c.Passes tmpPaddr root s) (c.Reflags tmpPaddr root s)
        (s.tables tmpPaddr) (s'.tables tmpPaddr)
        (pageTables.slots (s.tables tmpPaddr) root (indices u))) :
    NeighboursKept tmpPaddr root s c r s' ↔ SparesNeighbours tmpPaddr root s c := by
  have hpage : ∀ u, (∀ perms, s.perms tmpPaddr root u = some perms →
        s'.perms tmpPaddr root u = some perms) ↔ (s.leaf tmpPaddr root u ≠ none →
      Indifferent c.askedFlags (c.Passes tmpPaddr root s) (c.Reflags tmpPaddr root s)
        (s.tables tmpPaddr) (pageTables.slots (s.tables tmpPaddr) root (indices u))) := by
    intro u
    cases hleaf : s.leaf tmpPaddr root u with
    | none =>
      have hnone : s.perms tmpPaddr root u = none := by
        rw [VmState.perms, walkPerms, show pageTables.leaf _ _ _ = none from hleaf]
        rfl
      rw [hnone]
      exact ⟨fun _ hne => absurd rfl hne, fun _ _ h => by cases h⟩
    | some e =>
      obtain ⟨perms, hperms⟩ : ∃ perms, s.perms tmpPaddr root u = some perms := by
        rw [VmState.perms, walkPerms, show pageTables.leaf _ _ _ = some e from hleaf]
        exact ⟨_, rfl⟩
      have hiff := walkPerms_rewritten_iff (h u e hleaf) hleaf
      rw [← hiff]
      constructor
      · intro hkept _
        exact (hkept perms hperms).trans hperms.symm
      · intro hkept perms' hperms'
        exact (hkept (Option.some_ne_none e)).trans hperms'
  unfold NeighboursKept SparesNeighbours
  refine forall₂_congr fun u _ => ?_
  rw [hnames u, hpage u]

/-- What `vm_map_pages` names and rewrites. -/
theorem mapPages_rewritten (hwin : WindowOk s.tmpPt s.firstFreeTmpIndex)
    (hordered : Ordered tmpPaddr s.tmpPt root s.mem s.frames) (htmp : tmpPaddr ∉ s.frames)
    (hok : call root (vmMapPages (kernel tmpPaddr) fuel (.table root) paddrStart pages vaddrHint
      flags) s = .ok (r, s')) (hout : tmpPaddr ∉ s'.opened)
    (hc : c = .mapPages fuel paddrStart pages vaddrHint flags) :
    (∀ u, c.Names r u ↔ c.WillName root s u) ∧
      ∀ u e, s.leaf tmpPaddr root u = some e →
        Rewritten c.askedFlags (c.Passes tmpPaddr root s) (c.Reflags tmpPaddr root s)
          (s.tables tmpPaddr) (s'.tables tmpPaddr)
          (pageTables.slots (s.tables tmpPaddr) root (indices u)) := by
  subst hc
  obtain ⟨res, v⟩ := r
  obtain ⟨hroot, t, hflat, hleaves⟩ := vmMapPages_flat hwin hok hout
  have htables : s'.tables tmpPaddr = view tmpPaddr s.tmpPt t.mem := by
    rw [VmState.tables, hleaves.tmpPt_eq, hleaves.mem_eq]
  rw [htables]
  obtain ⟨hpages, ⟨herr, rfl, hnone⟩ | ⟨hres, index, w, hlen, hfinds, hv, hmap⟩⟩ :=
    vmMapPages_returned hflat
  · constructor
    · intro u
      constructor
      · rintro ⟨hsome, -⟩
        rw [herr] at hsome
        cases hsome
      · rintro ⟨index, hfinds, -⟩
        exact absurd hfinds (hnone index)
    · intro u e _
      refine ⟨?_, fun _ _ h => h.elim, fun _ _ _ _ => rfl⟩
      rintro x - ⟨index, hfinds, -⟩
      exact absurd hfinds (hnone index)
  · constructor
    · intro u
      constructor
      · rintro ⟨-, hu⟩
        exact ⟨index, (hfinds index).mpr rfl, hv ▸ hu⟩
      · rintro ⟨index', hfinds', hu⟩
        obtain rfl := (hfinds index').mp hfinds'
        exact ⟨hres, by rw [hv]; exact hu⟩
    · intro u e he
      -- the entries of the walk, one by one
      have hentry : ∀ x ∈ pageTables.slots (s.tables tmpPaddr) root (indices u),
          (PassedFrom (s.tables tmpPaddr) root index pages x →
            view tmpPaddr s.tmpPt t.mem x.1 x.2 = reflag (s.tables tmpPaddr x.1 x.2) flags) ∧
          (¬ PassedFrom (s.tables tmpPaddr) root index pages x →
            view tmpPaddr s.tmpPt t.mem x.1 x.2 = s.tables tmpPaddr x.1 x.2) := by
        intro x hx
        obtain ⟨n, -, hn, hat, -⟩ := Radix.At.root.slots (fun _ hi => indices_lt hi) hx
        rw [length_indices] at hn
        have hstart : Ordered tmpPaddr s.tmpPt root s.flat.mem s.flat.frames := hordered
        exact recurseMap_rewrites hroot hstart htmp hlen hpages hmap (by omega) hat
          (Radix.present_of_mem_slots he hx)
      refine ⟨?_, fun _ _ h => h.elim, ?_⟩
      · rintro x hx ⟨index', hfinds', hpass⟩
        obtain rfl := (hfinds index').mp hfinds'
        exact (hentry x hx).1 hpass
      · intro x hx hnot _
        exact (hentry x hx).2 fun hpass => hnot ⟨index, (hfinds index).mpr rfl, hpass⟩

/-- **When the permissions of neighbours are untouched.**  After a call of `vm_map_pages` or of
`vm_flag_pages` every mapped page that it does not name has the permissions that it had if and
only if the entries that the call rewrites do not decide them. -/
theorem neighbours_kept_iff (hwin : WindowOk s.tmpPt s.firstFreeTmpIndex)
    (hordered : Ordered tmpPaddr s.tmpPt root s.mem s.frames) (htmp : tmpPaddr ∉ s.frames)
    (hout : StaysOut tmpPaddr root s c.toVmCall)
    (hok : call root (c.run (kernel tmpPaddr) (.table root)) s = .ok (r, s')) :
    NeighboursKept tmpPaddr root s c r s' ↔ SparesNeighbours tmpPaddr root s c := by
  cases hc : c with
  | mapPages fuel paddrStart pages vaddrHint flags =>
    rw [hc] at hok hout
    have hcall : call root (VmCall.run (kernel tmpPaddr) (.table root)
        (.mapPages fuel paddrStart pages vaddrHint flags)) s = .ok ((), s') :=
      bind_eq_ok_iff.mpr ⟨r, s', hok, rfl⟩
    obtain ⟨hnames, hrewritten⟩ := mapPages_rewritten hwin hordered htmp hok (hout s' hcall) hc
    rw [← hc]
    exact neighboursKept_iff_of_rewritten hnames hrewritten
  | flagPages vaddrStart pages flags =>
    rw [hc] at hok hout
    obtain ⟨res, s₁, hflag, hpure⟩ := bind_eq_ok_iff.mp hok
    obtain ⟨rfl, rfl⟩ := pure_eq_ok_iff.mp hpure
    obtain ⟨hroot, havoid⟩ := hout
    have heff := flag_of_call hwin hroot (hordered.flagPre hroot havoid) hflag
    refine neighboursKept_iff_of_rewritten (fun u => Iff.rfl) fun u e _ => ?_
    exact ⟨fun x _ hx => heff.flagged.onInner x hx, fun x _ hx => heff.flagged.onLeaf x hx,
      fun x _ hi hl => heff.flagged.other x hi hl⟩

/-- A call that asks for the permissions of all entries that it comes to spares all pages. -/
theorem sparesNeighbours_of_settled
    (hinner : ∀ x, c.Passes tmpPaddr root s x →
      reflag (s.tables tmpPaddr x.1 x.2) c.askedFlags = s.tables tmpPaddr x.1 x.2)
    (hleaf : ∀ x, c.Reflags tmpPaddr root s x →
      setPte (ptePaddr (s.tables tmpPaddr x.1 x.2)) c.askedFlags = s.tables tmpPaddr x.1 x.2) :
    SparesNeighbours tmpPaddr root s c := by
  intro u _ _ hmapped
  obtain ⟨e, he⟩ := Option.ne_none_iff_exists'.mp hmapped
  have hsame : Rewritten c.askedFlags (c.Passes tmpPaddr root s) (c.Reflags tmpPaddr root s)
      (s.tables tmpPaddr) (s.tables tmpPaddr)
      (pageTables.slots (s.tables tmpPaddr) root (indices u)) :=
    ⟨fun x _ hx => (hinner x hx).symm, fun x _ hx => (hleaf x hx).symm, fun _ _ _ _ => rfl⟩
  exact (walkPerms_rewritten_iff hsame he).mp rfl

/-! ## Two pages beside each other -/

/-- The tables of two pages, with the way to `tmp_pt`, are in order. -/
theorem ordered_kernelEntries : Ordered 0x8000#64 (sparseState kernelEntries []).tmpPt 0x1000#64
    (sparseState kernelEntries []).mem [] :=
  ordered_window (by decide +kernel) (by decide +kernel) (List.forall_mem_nil _)
    (fun _ _ => List.not_mem_nil) List.nodup_nil

/-- The second of two pages is given the permissions that it has. -/
theorem settled_kernelEntries : Settled 0x8000#64 0x1000#64 (sparseState kernelEntries []) 0x1000 1
    (vmFlagWritable ||| vmFlagExecutable) := by
  exact settled_of_all (by decide +kernel)

/-- The call does not come to `tmp_pt`. -/
theorem staysOut_flag_kernelEntries : StaysOut 0x8000#64 0x1000#64 (sparseState kernelEntries [])
    (PermCall.toVmCall (.flagPages 0x1000 1 (vmFlagWritable ||| vmFlagExecutable))) := by
  have hall : ((flagReached 0x8000#64 0x1000#64 (sparseState kernelEntries []) 0x1000 1).all
      fun path => (pageTables.slots ((sparseState kernelEntries []).tables 0x8000#64) 0x1000#64
        path.dropLast).all fun x =>
          decide (ptePaddr ((sparseState kernelEntries []).tables 0x8000#64 x.1 x.2) ≠
            0x8000#64)) = true := by
    decide +kernel
  rw [List.all_eq_true] at hall
  refine ⟨by decide, ?_⟩
  rintro x ⟨path, hpath, hslot, -⟩
  exact of_decide_eq_true (List.all_eq_true.mp (hall path hpath) x hslot)

/-- The page behind them is the one that a search from there on finds. -/
theorem searchFinds_kernelEntries {index : List ℕ}
    (h : SearchFinds (sparseState kernelEntries []).mem 0x1000#64 0x9000#64 1 0x2000
      (vmFlagWritable ||| vmFlagExecutable) index) : index = [0, 0, 0, 2] := by
  have hrun : (findSpace (flat 0x8000#64) 2 0x9000#64 1 (vmFlagWritable ||| vmFlagExecutable) 3
      (indices 0x2000) 0x1000#64 (sparseState kernelEntries []).flat).toOption.any
      (fun x => decide (x.1.2 = [0, 0, 0, 2])) = true := by
    decide +kernel
  obtain ⟨r, hok, htest⟩ := Except.exists_of_any hrun
  have hfinds : SearchFinds (sparseState kernelEntries []).flat.mem 0x1000#64 0x9000#64 1 0x2000
      (vmFlagWritable ||| vmFlagExecutable) index := h
  obtain ⟨found, rfl⟩ := hfinds.returns (by decide) hok
  exact of_decide_eq_true htest

/-- The entries that it passes have these permissions too. -/
theorem sparesNeighbours_kernelEntries :
    SparesNeighbours 0x8000#64 0x1000#64 (sparseState kernelEntries [])
      (.mapPages 513 0x9000#64 1 0x2000 (vmFlagWritable ||| vmFlagExecutable)) := by
  have hall : ((fillWays ((sparseState kernelEntries []).tables 0x8000#64) 0x1000#64 [0, 0, 0, 2]
      1).all fun way => (pageTables.slots ((sparseState kernelEntries []).tables 0x8000#64)
        0x1000#64 way).all fun x =>
          decide (reflag ((sparseState kernelEntries []).tables 0x8000#64 x.1 x.2)
            (vmFlagWritable ||| vmFlagExecutable) =
              (sparseState kernelEntries []).tables 0x8000#64 x.1 x.2)) = true := by
    decide +kernel
  rw [List.all_eq_true] at hall
  refine sparesNeighbours_of_settled ?_ fun x hx => hx.elim
  rintro x ⟨index, hfinds, way, hway, hx⟩
  obtain rfl := searchFinds_kernelEntries hfinds
  exact of_decide_eq_true (List.all_eq_true.mp (hall way hway) x hx)

/-- Their neighbours are spared, whether one of them is given these permissions or a page is
mapped behind them. -/
theorem neighbours_kept_beside :
    (∃ s', call 0x1000#64 ((PermCall.mapPages 513 0x9000#64 1 0x2000
        (vmFlagWritable ||| vmFlagExecutable)).run (kernel 0x8000#64) (.table 0x1000#64))
        (sparseState kernelEntries []) = .ok ((success, 0x2000), s') ∧
      NeighboursKept 0x8000#64 0x1000#64 (sparseState kernelEntries [])
        (.mapPages 513 0x9000#64 1 0x2000 (vmFlagWritable ||| vmFlagExecutable))
        (success, 0x2000) s') ∧
    ∃ s', call 0x1000#64 ((PermCall.flagPages 0x1000 1 (vmFlagWritable ||| vmFlagExecutable)).run
        (kernel 0x8000#64) (.table 0x1000#64)) (sparseState kernelEntries []) =
        .ok ((success, 0x1000), s') ∧
      NeighboursKept 0x8000#64 0x1000#64 (sparseState kernelEntries [])
        (.flagPages 0x1000 1 (vmFlagWritable ||| vmFlagExecutable)) (success, 0x1000) s' := by
  constructor
  · have hrun : (call 0x1000#64 ((PermCall.mapPages 513 0x9000#64 1 0x2000
        (vmFlagWritable ||| vmFlagExecutable)).run (kernel 0x8000#64) (.table 0x1000#64))
        (sparseState kernelEntries [])).toOption.any
        (fun x => decide (x.1 = (success, 0x2000) ∧ 0x8000#64 ∉ x.2.opened)) = true := by
      decide +kernel
    obtain ⟨⟨r, s'⟩, hok, htest⟩ := Except.exists_of_any hrun
    obtain ⟨rfl, hopened⟩ : r = (success, 0x2000) ∧ 0x8000#64 ∉ s'.opened :=
      of_decide_eq_true htest
    refine ⟨s', hok, ?_⟩
    refine (neighbours_kept_iff window_sparse ordered_kernelEntries List.not_mem_nil ?_ hok).mpr
      sparesNeighbours_kernelEntries
    intro s₁ hs₁
    obtain ⟨x, s₂, hmap, hpure⟩ := bind_eq_ok_iff.mp hs₁
    obtain ⟨-, rfl⟩ := pure_eq_ok_iff.mp hpure
    have hsame : ((success, 0x2000), s') = (x, s₁) := Except.ok.inj (hok.symm.trans hmap)
    rw [← (Prod.mk.inj hsame).2]
    exact hopened
  · have hrun : (call 0x1000#64 ((PermCall.flagPages 0x1000 1
        (vmFlagWritable ||| vmFlagExecutable)).run (kernel 0x8000#64) (.table 0x1000#64))
        (sparseState kernelEntries [])).toOption.any
        (fun x => decide (x.1 = (success, 0x1000))) = true := by
      decide +kernel
    obtain ⟨⟨r, s'⟩, hok, htest⟩ := Except.exists_of_any hrun
    obtain rfl : r = (success, 0x1000) := of_decide_eq_true htest
    refine ⟨s', hok, ?_⟩
    exact (neighbours_kept_iff window_sparse ordered_kernelEntries List.not_mem_nil
      staysOut_flag_kernelEntries hok).mpr
        (sparesNeighbours_of_settled settled_kernelEntries.inner settled_kernelEntries.leaf)

/-- **When it is to be read only, its neighbour becomes read only too.** -/
theorem not_neighbours_kept_beside :
    ∃ s', call 0x1000#64 ((PermCall.flagPages 0x1000 1 0).run (kernel 0x8000#64) (.table 0x1000#64))
        (sparseState kernelEntries []) = .ok ((success, 0x1000), s') ∧
      ¬ NeighboursKept 0x8000#64 0x1000#64 (sparseState kernelEntries []) (.flagPages 0x1000 1 0)
        (success, 0x1000) s' := by
  have hrun : (call 0x1000#64 ((PermCall.flagPages 0x1000 1 0).run (kernel 0x8000#64)
      (.table 0x1000#64)) (sparseState kernelEntries [])).toOption.any
      (fun x => decide (x.1 = (success, 0x1000) ∧ x.2.perms 0x8000#64 0x1000#64 0 ≠
        some ⟨true, false, false⟩)) = true := by
    decide +kernel
  obtain ⟨⟨r, s'⟩, hok, htest⟩ := Except.exists_of_any hrun
  obtain ⟨rfl, hne⟩ : r = (success, 0x1000) ∧
      s'.perms 0x8000#64 0x1000#64 0 ≠ some ⟨true, false, false⟩ := of_decide_eq_true htest
  refine ⟨s', hok, ?_⟩
  intro hkept
  refine hne (hkept 0 ⟨by decide, by decide, by decide⟩ ?_ _ (by decide +kernel))
  rintro ⟨k, -, hk⟩
  rw [pageSize] at hk
  omega

end Mimik.Vm
