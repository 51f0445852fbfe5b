/-
# The access a mapping grants

The processor lets a page be written if all four entries on the way allow it.  The upper
three were made by whichever mapping came first, with the flags of that mapping.

* `permissions` : the effective permissions of an address;
* `map4K_permissions` : a mapping grants what it was asked for if the entries already on
  its way carry the rights asked for;
* `permissions_granted` : so do all mappings of a run in which every call finds it so;
* `readonly_first` : but not in every run.
-/
import FzzOS.Mapping

open RadixTree Relation Runs

namespace Vmm

variable {α : Type} {fmt : Format} {alloc : Allocator α} {flags v w : U64} {root : ℕ}
  {s s' s₀ : Machine α}

/-! ## Effective permissions -/

/-- Writable and user-accessible: the rights all entries of a walk agree on. -/
def effective (es : List U64) : Bool × Bool := (es.all writable, es.all userAccessible)

/-- The effective permissions of an address, if it is mapped. -/
def permissions (m : Mem) (root : ℕ) (v : U64) : Option (Bool × Bool) :=
  (pageWalk m root v).map effective

/-- The rights asked for by some flags. -/
def asked (flags : U64) : Bool × Bool := (writable flags, userAccessible flags)

/-- Entry `e` carries the rights asked for by `flags`. -/
def Carries (flags e : U64) : Prop :=
  (writable flags = true → writable e = true) ∧
  (userAccessible flags = true → userAccessible e = true)

/-- Entries that carry the rights asked for leave the decision to the last one. -/
theorem effective_concat {es : List U64} {x : U64} (hes : ∀ e ∈ es, Carries flags e)
    (hx : asked x = asked flags) : effective (es ++ [x]) = asked flags := by
  have hw : writable x = writable flags := congrArg Prod.fst hx
  have hu : userAccessible x = userAccessible flags := congrArg Prod.snd hx
  unfold effective asked
  simp only [List.all_append, List.all_cons, List.all_nil, Bool.and_true, hw, hu]
  congr 1
  · cases hfl : writable flags with
    | false => rw [Bool.and_false]
    | true =>
      rw [Bool.and_true, List.all_eq_true]
      exact fun e he => (hes e he).1 hfl
  · cases hfl : userAccessible flags with
    | false => rw [Bool.and_false]
    | true =>
      rw [Bool.and_true, List.all_eq_true]
      exact fun e he => (hes e he).2 hfl

/-- An aligned address adds no rights. -/
theorem asked_or {p : U64} (hp : Aligned p) : asked (p ||| flags) = asked flags := by
  unfold asked writable userAccessible
  rw [getLsbD_or_flags hp (by decide), getLsbD_or_flags hp (by decide)]

/-- Entries made with some flags carry them. -/
theorem carries_or (p flags : U64) : Carries flags (p ||| flags) := by
  unfold Carries writable userAccessible
  constructor
  · intro h
    rw [BitVec.getLsbD_or, h, Bool.or_true]
  · intro h
    rw [BitVec.getLsbD_or, h, Bool.or_true]

/-! ## One mapping -/

/-- **One mapping.**  If every present entry on the way carries the rights asked for, the
page gets exactly these, and no other page changes. -/
theorem map4K_permissions {p : U64} (h : PageTree fmt s.mem root) (hphys : fmt.Physical)
    (hroot : root < 2 ^ 52) (hclear : PathClear fmt s.mem root (tablePath v))
    (hall : Supplied fmt alloc flags root (frameAddr root) (tablePath v) s) (hp : Aligned p)
    (hpres : present flags = true)
    (hcarry : OnPath (fun _ => Carries flags) s.mem root (tablePath v)) :
    PageTree fmt (vmmMap4Kpage alloc (frameAddr root) v p flags s).mem root ∧
    ∀ w, permissions (vmmMap4Kpage alloc (frameAddr root) v p flags s).mem root w
      = if pageOf w = pageOf v then some (asked flags) else permissions s.mem root w := by
  obtain ⟨s₁, f, hsteps, hf52, hf, heq⟩ :=
    mapAt_spec (i := indexAt 12 v) (x := p ||| flags) h hroot (le_refl 3) hclear hall
  have h₁ := hsteps.pageTree h
  have hst := stored_setEntry (i := indexAt 12 v) (x := p ||| flags) hf52 (le_refl 3) hf
  have h' := hst.pageTree h₁ (storable_three _)
  -- the entries on the way, old and new, carry the rights
  have hcarry₁ : OnPath (fun _ => Carries flags) s₁.mem root (tablePath v) :=
    hsteps.onPath h (le_refl 3) (fun g _ _ => carries_or (frameAddr g) flags) hcarry
  have hcarry' := hst.onPath h₁ hcarry₁
  have hentries : ∀ e ∈ entries swChild
      (s₁.setEntry (frameAddr f) (ofIndex (indexAt 12 v)) (p ||| flags)).mem root (tablePath v),
      Carries flags e := by
    intro e he
    obtain ⟨p₁, i, p₂, f₁, hpath, hf₁, rfl, hsome⟩ :=
      exists_of_mem_entries (hst.table_after h₁) he
    obtain ⟨g, hg⟩ := Option.isSome_iff_exists.mp hsome
    exact hcarry' p₁ i p₂ f₁ hpath hf₁ (of_swChild_eq_some hg).1
  rw [vmmMap4Kpage_eq, heq]
  refine ⟨h', fun w => ?_⟩
  rw [permissions, permissions, Machine.note_mem, h'.pageWalk_eq hphys, h.pageWalk_eq hphys]
  split_ifs with hw
  · rw [(vpath_eq_iff w v).mpr hw, vpath_eq_append,
      hst.walk_leaf h₁ (r := []) (present_or p hpres), Option.map_some,
      effective_concat hentries (asked_or hp)]
  · rw [hst.walk_off h₁ rfl (by rwa [prefix_vpath_iff]), hsteps.walk_eq h rfl]

/-! ## Runs -/

/-- A call of `vmm_map_4Kpage`. -/
structure MapCall where
  virtual : U64
  physical : U64
  flags : U64

namespace MapCall

/-- What a call does. -/
def apply (alloc : Allocator α) (root : ℕ) (c : MapCall) (s : Machine α) : Machine α :=
  vmmMap4Kpage alloc (frameAddr root) c.virtual c.physical c.flags s

/-- An aligned address, access flags, and fresh frames for the tables made. -/
structure Valid (alloc : Allocator α) (root : ℕ) (s : Machine α) (c : MapCall) : Prop where
  aligned : Aligned c.physical
  flags : AccessFlags c.flags
  allocs : AllocsOn (FreshPage smallPhysical alloc root) alloc c.flags (frameAddr root)
    (tablePath c.virtual) s

/-- Every present entry above the last level on the way carries the rights asked for. -/
def Unhindered (root : ℕ) (s : Machine α) (c : MapCall) : Prop :=
  OnPath (fun _ => Carries c.flags) s.mem root (tablePath c.virtual)

/-- What a call is for: its page gets the rights asked for. -/
def grant (c : MapCall) (rights : Page → Option (Bool × Bool)) : Page → Option (Bool × Bool) :=
  Function.update rights (pageOf c.virtual) (some (asked c.flags))

end MapCall

/-- The permissions of the pages of an address space. -/
def pagePermissions (m : Mem) (root : ℕ) (page : Page) : Option (Bool × Bool) :=
  permissions m root (pageAddr page)

theorem pagePermissions_pageOf (m : Mem) (root : ℕ) (v : U64) :
    pagePermissions m root (pageOf v) = permissions m root v := by
  have hpath := (vpath_eq_iff _ v).mpr (pageOf_pageAddr (pageOf v))
  rw [pagePermissions, permissions, permissions, pageWalk, pageWalk, hpath]

/-- On an empty root nothing is mapped. -/
theorem pagePermissions_of_empty {m : Mem} (hempty : ∀ i, m root i = 0) :
    pagePermissions m root = fun _ => none := by
  funext page
  rw [pagePermissions, permissions, pageWalk_of_zero (hempty _), Option.map_none]

theorem MapCall.apply_spec (hroot : root < 2 ^ 52) {c : MapCall}
    (h : PageTree smallPhysical s.mem root) (hv : c.Valid alloc root s)
    (hfree : c.Unhindered root s) :
    PageTree smallPhysical (c.apply alloc root s).mem root ∧
    pagePermissions (c.apply alloc root s).mem root = c.grant (pagePermissions s.mem root) := by
  obtain ⟨h', hperm⟩ := map4K_permissions h smallPhysical_physical hroot
    (smallPhysical_pathClear _ _ _)
    (hv.allocs.supplied (hv.flags.linkFlags (by decide) (by decide)))
    hv.aligned hv.flags.present hfree
  refine ⟨h', ?_⟩
  funext page
  rw [MapCall.apply, pagePermissions, hperm, MapCall.grant, Function.update_apply,
    pageOf_pageAddr, pagePermissions]

/-- **Mappings grant what was asked for.**  In every run from an empty root in which each
call finds the present entries on its way with the rights it asks for, every page has the
rights of the last call that mapped it. -/
theorem permissions_granted {calls : List MapCall} (hroot : root < 2 ^ 52)
    (hempty : ∀ i, s₀.mem root i = 0)
    (hrun : Run (MapCall.apply alloc root)
      (fun s c => c.Valid alloc root s ∧ c.Unhindered root s) s₀ calls s) (v : U64) :
    permissions s.mem root v
      = calls.foldl (fun rights c => c.grant rights) (fun _ => none) (pageOf v) := by
  have hstep : ∀ (s : Machine α) (c : MapCall), PageTree smallPhysical s.mem root →
      c.Valid alloc root s ∧ c.Unhindered root s →
      PageTree smallPhysical (c.apply alloc root s).mem root :=
    fun s c h hv => (MapCall.apply_spec hroot h hv.1 hv.2).1
  have hsim : ∀ (s : Machine α) (c : MapCall), PageTree smallPhysical s.mem root →
      c.Valid alloc root s ∧ c.Unhindered root s →
      pagePermissions (c.apply alloc root s).mem root
        = c.grant (pagePermissions s.mem root) :=
    fun s c h hv => (MapCall.apply_spec hroot h hv.1 hv.2).2
  have hfold := hrun.refines (P := fun s => PageTree smallPhysical s.mem root)
    (fun s : Machine α => pagePermissions s.mem root) MapCall.grant
    (pageTree_of_empty hempty) hstep hsim
  rw [pagePermissions_of_empty hempty] at hfold
  exact (pagePermissions_pageOf s.mem root v).symm.trans (congrFun hfold (pageOf v))

/-- A writable page on the bare machine. -/
theorem permissions_granted_bare :
    permissions (vmmMap4Kpage countUp (frameAddr 1) 0x400000 0x5000 3 bare).mem 1 0x400123
      = some (true, false) := by
  have hrun : Run (MapCall.apply countUp 1)
      (fun s c => c.Valid countUp 1 s ∧ c.Unhindered 1 s) bare [⟨0x400000, 0x5000, 3⟩] _ :=
    .step .start ⟨⟨by decide, ⟨by decide, by decide⟩,
      bare_allocsOn (fun _ => frameAddr_and_physMask) ⟨by decide, by decide, by decide⟩
        (le_refl 3)⟩,
      bare_onPath _ 1 _⟩
  exact (permissions_granted (by decide) (fun _ => rfl) hrun 0x400123).trans (by decide)

/-- A read-only page first, then a writable one in the same table: it cannot be written. -/
theorem readonly_first :
    ¬ ∀ (alloc : Allocator ℕ) (root : ℕ) (s₀ s : Machine ℕ) (calls : List MapCall) (v : U64),
      root < 2 ^ 52 → (∀ i, s₀.mem root i = 0) →
      Run (MapCall.apply alloc root) (MapCall.Valid alloc root) s₀ calls s →
      permissions s.mem root v
        = calls.foldl (fun rights c => c.grant rights) (fun _ => none) (pageOf v) := by
  intro hclaim
  have hfirst : Run (MapCall.apply countUp 1) (fun s c => MapCall.Valid countUp 1 s c) bare
      [⟨0x400000, 0x5000, 1⟩] _ :=
    .step .start ⟨by decide, ⟨by decide, by decide⟩,
      bare_allocsOn (fun _ => frameAddr_and_physMask) ⟨by decide, by decide, by decide⟩
        (le_refl 3)⟩
  have hsecond : Run (MapCall.apply countUp 1) (fun s c => MapCall.Valid countUp 1 s c) bare
      [⟨0x400000, 0x5000, 1⟩, ⟨0x401000, 0x6000, 3⟩] _ :=
    .step hfirst ⟨by decide, ⟨by decide, by decide⟩, fun h => absurd h (by decide),
      fun h => absurd h (by decide), fun h => absurd h (by decide), True.intro⟩
  exact absurd (hclaim countUp 1 bare _ _ 0x401000 (by decide) (fun _ => rfl) hsecond)
    (by decide)

end Vmm
