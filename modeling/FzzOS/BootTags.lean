/-
# The bootloader's tags

The bootloader hands over a chain of tags.  `_start` looks for eight of them, one after the
other; it stops for good at the first of the last seven that is missing, and passes on to
`kernel` when it has them all.

* `stivale2GetTag`, `start` : the code;
* `start_of_tags` : where `_start` ends, for any chain;
* `start_kernel_iff` : when it gets to `kernel`, and with which pointers.
-/
import FzzOS.Chains
import FzzOS.Words

open Chains

/-- `struct stivale2_tag`. -/
structure Stivale2Tag where
  identifier : U64
  next : U64

/-- `enum bootloader_type`. -/
inductive BootloaderType
  | stivale2 | limine

/-- `struct bootinfo_t`, as far as `_start` writes it. -/
structure BootInfo where
  type : BootloaderType
  tagKernelBaseAddress : U64
  tagMemmap : U64
  tagFramebuffer : U64
  tagModules : U64
  tagRsdp : U64
  tagHhdm : U64
  tagPmrs : U64

namespace BootTags

/-! ## The code -/

/-- `STIVALE2_STRUCT_TAG_TERMINAL_ID`. -/
def terminalId : U64 := 0xc2b3f4c3233b0974

/-- `STIVALE2_STRUCT_TAG_FRAMEBUFFER_ID`. -/
def framebufferId : U64 := 0x506461d2950408fa

/-- `STIVALE2_STRUCT_TAG_MEMMAP_ID`. -/
def memmapId : U64 := 0x2187f79e8612de07

/-- `STIVALE2_STRUCT_TAG_KERNEL_BASE_ADDRESS_ID`. -/
def kernelBaseAddressId : U64 := 0x060d78874a2a8af0

/-- `STIVALE2_STRUCT_TAG_RSDP_ID`. -/
def rsdpId : U64 := 0x9e1786930a375e78

/-- `STIVALE2_STRUCT_TAG_HHDM_ID`. -/
def hhdmId : U64 := 0xb0ed257db18cb58f

/-- `STIVALE2_STRUCT_TAG_PMRS_ID`. -/
def pmrsId : U64 := 0x5df266a64047b6bd

/-- `STIVALE2_STRUCT_TAG_MODULES_ID`. -/
def modulesId : U64 := 0x4b6fe466aade04ce

/-- `stivale2_get_tag`, in `n` rounds; `none` if it is still searching then. -/
def stivale2GetTag (mem : U64 → Stivale2Tag) (id : U64) : ℕ → U64 → Option U64
  | 0, _ => none
  | n + 1, currentTag =>
    if currentTag = 0 then some 0
    else if (mem currentTag).identifier = id then some currentTag
    else stivale2GetTag mem id n (mem currentTag).next

/-- Where `_start` ends. -/
inductive Outcome
  /-- Nowhere: it is still searching. -/
  | searching
  /-- In the loop around `hlt`. -/
  | halted (info : BootInfo)
  /-- In `kernel`. -/
  | kernel (info : BootInfo)

variable (mem : U64 → Stivale2Tag) (tags : U64) (n : ℕ)

/-- The blocks of `_start`, one after the other: a search, an assignment to `boot_info`, and a
halt if nothing was found. -/
def require : List (U64 × (U64 → BootInfo → BootInfo)) → BootInfo → Outcome
  | [], info => .kernel info
  | (id, assign) :: blocks, info =>
    match stivale2GetTag mem id n tags with
    | none => .searching
    | some tag => if tag = 0 then .halted (assign tag info) else require blocks (assign tag info)

/-- What is looked for, in the order of the blocks, and where it is kept. -/
def blocks : List (U64 × (U64 → BootInfo → BootInfo)) :=
  [(framebufferId, fun tag info => { info with tagFramebuffer := tag }),
    (memmapId, fun tag info => { info with tagMemmap := tag }),
    (kernelBaseAddressId, fun tag info => { info with tagKernelBaseAddress := tag }),
    (rsdpId, fun tag info => { info with tagRsdp := tag }),
    (hhdmId, fun tag info => { info with tagHhdm := tag }),
    (pmrsId, fun tag info => { info with tagPmrs := tag }),
    (modulesId, fun tag info => { info with tagModules := tag })]

/-- `_start`, with `boot_info` as it was before. -/
def start (info : BootInfo) : Outcome :=
  let info := { info with type := .stivale2 }
  match stivale2GetTag mem terminalId n tags with
  | none => .searching
  -- a missing terminal is not a reason to stop
  | some _ => require mem tags n blocks info

/-! ## What it finds -/

variable {mem tags n} {l : List U64} {info : BootInfo} {id : U64}

/-- The tags from `tags` on are at the addresses `l`. -/
def Tags (mem : U64 → Stivale2Tag) (tags : U64) (l : List U64) : Prop :=
  IsChain (fun a => (mem a).next) 0 tags l

instance (mem : U64 → Stivale2Tag) (tags : U64) (l : List U64) : Decidable (Tags mem tags l) :=
  inferInstanceAs (Decidable (IsChain _ _ _ _))

/-- The first tag with an identifier, `0` if there is none. -/
def firstTag (mem : U64 → Stivale2Tag) (l : List U64) (id : U64) : U64 :=
  first 0 (fun a => (mem a).identifier = id) l

/-- The function is the search along the chain. -/
theorem stivale2GetTag_eq (mem : U64 → Stivale2Tag) (id : U64) (n : ℕ) (p : U64) :
    stivale2GetTag mem id n p
      = search (fun a => (mem a).next) 0 (fun a => (mem a).identifier = id) n p := by
  induction n generalizing p with
  | zero => rfl
  | succ n ih => simp only [stivale2GetTag, search, ih, decide_eq_true_eq]

/-- **The search always ends.** -/
theorem stivale2GetTag_of_tags (h : Tags mem tags l) (hn : l.length < n) (id : U64) :
    stivale2GetTag mem id n tags = some (firstTag mem l id) := by
  rw [stivale2GetTag_eq, search_eq h hn]
  rfl

/-- The pointers the kernel gets, by the identifiers of their tags. -/
def required : List (U64 × (BootInfo → U64)) :=
  [(framebufferId, BootInfo.tagFramebuffer), (memmapId, BootInfo.tagMemmap),
    (kernelBaseAddressId, BootInfo.tagKernelBaseAddress), (rsdpId, BootInfo.tagRsdp),
    (hhdmId, BootInfo.tagHhdm), (pmrsId, BootInfo.tagPmrs), (modulesId, BootInfo.tagModules)]

/-- `boot_info` with everything found. -/
def complete (mem : U64 → Stivale2Tag) (l : List U64) (info : BootInfo) : BootInfo :=
  blocks.foldl (fun info b => b.2 (firstTag mem l b.1) info) { info with type := .stivale2 }

/-- Every pointer is assigned once, from the tag with its identifier. -/
theorem complete_required (mem : U64 → Stivale2Tag) (l : List U64) (info : BootInfo) :
    ∀ r ∈ required, r.2 (complete mem l info) = firstTag mem l r.1 := by
  simp only [required, List.forall_mem_cons]
  exact ⟨rfl, rfl, rfl, rfl, rfl, rfl, rfl, fun _ hr => absurd hr List.not_mem_nil⟩

theorem required_ids : required.map Prod.fst = blocks.map Prod.fst := rfl

/-- The blocks stop at the first tag that is missing. -/
theorem require_of_tags (h : Tags mem tags l) (hn : l.length < n)
    (blocks : List (U64 × (U64 → BootInfo → BootInfo))) (info : BootInfo) :
    ((∀ id ∈ blocks.map Prod.fst, firstTag mem l id ≠ 0) ∧
        require mem tags n blocks info
          = .kernel (blocks.foldl (fun info b => b.2 (firstTag mem l b.1) info) info)) ∨
      ((∃ id ∈ blocks.map Prod.fst, firstTag mem l id = 0) ∧
        ∃ info', require mem tags n blocks info = .halted info') := by
  induction blocks generalizing info with
  | nil => exact Or.inl ⟨fun _ hid => absurd hid List.not_mem_nil, rfl⟩
  | cons b blocks ih =>
    rw [require, stivale2GetTag_of_tags h hn, List.map_cons]
    dsimp only
    by_cases hfound : firstTag mem l b.1 = 0
    · rw [if_pos hfound]
      exact Or.inr ⟨⟨b.1, List.mem_cons_self, hfound⟩, _, rfl⟩
    rw [if_neg hfound]
    rcases ih (b.2 (firstTag mem l b.1) info) with ⟨hall, heq⟩ | ⟨⟨id, hid, hmissing⟩, hhalt⟩
    · exact Or.inl ⟨List.forall_mem_cons.mpr ⟨hfound, hall⟩, heq⟩
    · exact Or.inr ⟨⟨id, List.mem_cons_of_mem _ hid, hmissing⟩, hhalt⟩

/-- **Where `_start` ends**: in `kernel` with all the tags, or in the halt loop. -/
theorem start_of_tags (h : Tags mem tags l) (hn : l.length < n) (info : BootInfo) :
    ((∀ id ∈ required.map Prod.fst, firstTag mem l id ≠ 0) ∧
        start mem tags n info = .kernel (complete mem l info)) ∨
      ((∃ id ∈ required.map Prod.fst, firstTag mem l id = 0) ∧
        ∃ info', start mem tags n info = .halted info') := by
  rw [start, stivale2GetTag_of_tags h hn, required_ids]
  exact require_of_tags h hn blocks { info with type := .stivale2 }

/-- **The kernel starts with everything it needs.**  Whatever the chain, `_start` gets to
`kernel` if and only if there is a tag of each of the seven kinds; then every pointer is the
first tag of its kind; otherwise it halts. -/
theorem start_kernel_iff (h : Tags mem tags l) (hn : l.length < n) (info : BootInfo) :
    ((∃ info', start mem tags n info = .kernel info') ↔
        ∀ r ∈ required, ∃ a ∈ l, (mem a).identifier = r.1) ∧
      (∀ info', start mem tags n info = .kernel info' →
        ∀ r ∈ required, l.find? (fun a => (mem a).identifier = r.1) = some (r.2 info')) ∧
      ((¬ ∃ info', start mem tags n info = .kernel info') →
        ∃ info', start mem tags n info = .halted info') ∧
      ∀ id, stivale2GetTag mem id n tags ≠ none := by
  have hfound : ∀ id, firstTag mem l id ≠ 0 ↔ ∃ a ∈ l, (mem a).identifier = id := by
    intro id
    refine (first_ne_null_iff h).trans (exists_congr fun a => and_congr_right fun _ => ?_)
    exact decide_eq_true_iff
  have hends : ∀ id, stivale2GetTag mem id n tags ≠ none := by
    intro id
    rw [stivale2GetTag_of_tags h hn]
    exact Option.some_ne_none _
  rcases start_of_tags h hn info with ⟨hall, heq⟩ | ⟨⟨id, hid, hmissing⟩, info', heq⟩
  · have hpresent : ∀ r ∈ required, firstTag mem l r.1 ≠ 0 := fun r hr =>
      hall r.1 (List.mem_map_of_mem hr)
    refine ⟨⟨fun _ r hr => (hfound r.1).mp (hpresent r hr), fun _ => ⟨_, heq⟩⟩, ?_,
      fun hno => absurd ⟨_, heq⟩ hno, hends⟩
    intro info' hinfo r hr
    rw [heq, Outcome.kernel.injEq] at hinfo
    rw [← hinfo, complete_required mem l info r hr]
    exact find?_of_first_ne_null (hpresent r hr)
  · have hno : ∀ info', start mem tags n info ≠ .kernel info' := by
      intro info'
      rw [heq]
      exact Outcome.noConfusion
    refine ⟨⟨fun ⟨_, hk⟩ => absurd hk (hno _), fun hall => ?_⟩,
      fun info' hk => absurd hk (hno info'), fun _ => ⟨info', heq⟩, hends⟩
    obtain ⟨r, hr, rfl⟩ := List.mem_map.mp hid
    exact absurd hmissing ((hfound r.1).mpr (hall r hr))

/-- Tags of all kinds at the addresses 1 to 9, the modules first, the memory map twice. -/
def nineTags (a : U64) : Stivale2Tag where
  identifier := [modulesId, pmrsId, memmapId, hhdmId, terminalId, memmapId, rsdpId,
    kernelBaseAddressId, framebufferId].getD (a.toNat - 1) 0
  next := if a = 9 then 0 else a + 1

/-- `boot_info` before boot. -/
def zeroInfo : BootInfo := ⟨.stivale2, 0, 0, 0, 0, 0, 0, 0⟩

/-- The kernel is reached. -/
theorem start_kernel_nineTags : ∃ info', start nineTags 1 10 zeroInfo = .kernel info' := by
  refine (start_kernel_iff (l := [1, 2, 3, 4, 5, 6, 7, 8, 9]) (by decide) (by decide)
    zeroInfo).1.mpr ?_
  simp only [required, List.forall_mem_cons]
  exact ⟨⟨9, by decide, rfl⟩, ⟨3, by decide, rfl⟩, ⟨8, by decide, rfl⟩, ⟨7, by decide, rfl⟩,
    ⟨4, by decide, rfl⟩, ⟨2, by decide, rfl⟩, ⟨1, by decide, rfl⟩,
    fun _ hr => absurd hr List.not_mem_nil⟩

end BootTags
