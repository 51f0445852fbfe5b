/-
# `kmalloc`

The search for a block with room: from the best bet to the last block, once more from the first
block to the last, and then behind the last one.

* `Stored` : the heap with one more piece;
* `majorLoop_ends` : the loop over the blocks comes to an end, with the piece or with the refusal
  of the hook;
* `kmalloc_ends` : so does the call.
-/
import FzzOS.HeapGrow

open StackWords ByteFields Packing DoubleLinks Program

namespace Liballoc

variable {μ : Type} {m : Platform μ} {Ok : μ → Prop} {image : μ → Image} {v v' : View}
  {L L' : Layout} {b c : Block} {x : Piece} {i : Image} {size req p : U64}
  {pre post : List Block} {rounds : ℕ} {flag : Bool}

/-! ## One more piece -/

/-- The heap has the piece `x` beside the others, and what was asked for before is as it was. -/
structure Stored (L : Layout) (i : Image) (x : Piece) (L' : Layout) (v' : View) : Prop where
  represents : Represents v' L'
  settled : L'.Settled
  pieces : L'.pieces.Perm (x :: L.pieces)
  keeps : Keeps L i v'.mem

/-- Some block has a gap that takes a piece of this size. -/
def Layout.HasGap (L : Layout) (size : U64) : Prop := ∃ b ∈ L.blocks, b.HasGap size

/-- What `kmalloc` may return, for a request of `req` bytes that takes `size`: a null pointer if
the hook has no pages for it, or the pointer of a new piece.  The hook is asked only if
there is no gap for the piece; otherwise there are no more pages than before. -/
inductive Served (L : Layout) (size req : U64) (i : Image) : U64 → View → Prop
  | refused {v' : View} (hook : i.Refuses size) (full : ¬ L.HasGap size)
      (represents : Represents v' L) (keeps : Keeps L i v'.mem) : Served L size req i 0 v'
  | stored {v' : View} {L' : Layout} {x : Piece} (hsize : x.size = size) (hreq : x.req = req)
      (stored : Stored L i x L' v')
      (reuse : L.HasGap size → v'.mem.dom = i.dom) :
      Served L size req i x.ptr v'

/-- A piece put into one of the blocks. -/
theorem Placed.stored (h : Placed b size req v p v') (hv : Represents v L)
    (hL : L.blocks = pre ++ b :: post) (hothers : ∀ c ∈ pre ++ post, c.pieces ≠ []) :
    ∃ x L', x.size = size ∧ x.req = req ∧ p = x.ptr ∧ Stored L v.mem x L' v' ∧
      v'.mem.dom = v.mem.dom := by
  obtain ⟨l, x, r, b', hg, hsize, hreq, hp, hins⟩ := h
  refine ⟨x, _, hsize, hreq, hp, ⟨hins.represents hv hL hg, fun c hc => ?_, ?_, ?_⟩,
    hins.dom⟩
  · rcases List.mem_append.mp hc with hc | hc
    · exact hothers c (List.mem_append_left _ hc)
    · rcases List.mem_cons.mp hc with rfl | hc
      · rw [hg.pieces]
        exact List.append_ne_nil_of_right_ne_nil _ (List.cons_ne_nil x r)
      · exact hothers c (List.mem_append_right _ hc)
  · rw [Layout.pieces, Layout.pieces, hL]
    simp only [List.flatMap_append, List.flatMap_cons, hg.pieces, hg.old]
    have hmiddle : (l ++ x :: r).Perm (x :: (l ++ r)) := List.perm_middle
    exact ((hmiddle.append_right _).append_left _).trans List.perm_middle
  · intro y hy a ha
    have hL' := L.apart_update hL hg.addr hg.pages
    refine hins.bytes_eq hg (Layout.not_private (L := ⟨_, hL'⟩) ?_ ha ?_)
    · rw [Layout.pieces, hL] at hy
      simp only [Layout.pieces, List.flatMap_append, List.flatMap_cons, hg.pieces, hg.old,
        List.mem_append, List.mem_cons] at hy ⊢
      tauto
    · exact List.mem_append_right _ List.mem_cons_self

/-- What is stored in the heap with a new block is stored in the heap. -/
theorem Extended.stored {L₁ : Layout} (h : Extended L size i b L₁ v)
    (hx : Stored L₁ v.mem x L' v') : Stored L i x L' v' := by
  have hpieces : L₁.pieces = L.pieces := by
    rw [Layout.pieces, Layout.pieces, h.blocks, List.flatMap_append, List.flatMap_singleton,
      h.empty, List.append_nil]
  refine ⟨hx.represents, hx.settled, hpieces ▸ hx.pieces, h.keeps.trans ?_ hx.keeps⟩
  intro y hy
  rwa [hpieces]

/-! ## Room in a block -/

/-- What a block has left, as the code counts it. -/
def Block.free (b : Block) : ℕ := b.size - b.usage

theorem Block.free_lt (b : Block) : b.free < 2 ^ 32 := by
  have hsmall := b.small
  unfold Block.free Block.size
  omega

theorem Block.setWidth_free (b : Block) :
    (BitVec.ofNat 32 b.free).setWidth 64 = BitVec.ofNat 64 b.free := by
  apply BitVec.eq_of_toNat_eq
  have hlt := b.free_lt
  rw [BitVec.toNat_setWidth, BitVec.toNat_ofNat, BitVec.toNat_ofNat]
  omega

theorem ends_freeSpace (hm : Lawful m Ok image) (hb : BlockAt v.mem b) {Q : U32 → View → Prop}
    (h : Q (BitVec.ofNat 32 b.free) v) : Ends Ok image (freeSpace m b.addr) v Q := by
  have hmaj := hb.mapped_header
  refine .bind (ends_get hm (.bind (ends_get hm (.pure ?_))))
  have hdiff : (v.mem.field b.addr Major.size).setWidth 32
      - (v.mem.field b.addr Major.usage).setWidth 32 = BitVec.ofNat 32 b.free := by
    have hle := b.usage_le
    have hsmall := b.small
    rw [hb.size, hb.usage]
    unfold Block.free Block.size at *
    apply BitVec.eq_of_toNat_eq
    simp only [BitVec.toNat_sub, BitVec.toNat_setWidth, BitVec.toNat_ofNat]
    omega
  rw [hdiff]
  exact h

/-- The best bet may change. -/
theorem ends_remember {diff bestSize : U64} (hv : Represents v L) (hb : b ∈ L.blocks)
    {Q : U64 → View → Prop}
    (h : ∀ best v', v'.mem = v.mem → v'.lMemRoot = v.lMemRoot → Represents v' L → Q best v') :
    Ends Ok image (remember b.addr diff bestSize) v Q := by
  refine .ite (fun _ => .bind (.modify (g := fun w : View => { w with lBestBet := b.addr })
    (fun _ => id) (fun _ => rfl) (.pure (h diff _ rfl rfl ?_)))) fun _ => .pure (h _ v rfl rfl hv)
  exact hv.congr rfl rfl (Or.inr (List.mem_map_of_mem hb)) rfl rfl

/-- The block behind a block. -/
theorem Represents.next (hv : Represents v L) (hL : L.blocks = pre ++ b :: post) :
    v.mem.field b.addr Major.next = first (post.map Block.addr) 0 := by
  have hlinks := hv.links
  rw [hL, List.map_append, List.map_cons] at hlinks
  exact hlinks.at.2

/-! ## The loop over the blocks -/

/-- Behind the last block the search starts again, or the heap grows. -/
theorem ends_lastBlock (hm : Lawful m Ok image) {α : Type} (again fits : U64 → α) (noMemory : α)
    (hsize : size.toNat ≤ maxSize) {startedBet : Bool} (hv : Represents v L)
    (hL : L.blocks = pre ++ [b]) {Q : α → View → Prop}
    (hroot : startedBet = true → Q (again v.lMemRoot) v)
    (hrefused : startedBet = false → v.mem.Refuses size →
      ∀ v', Represents v' L → Keeps L v.mem v'.mem → Q noMemory v')
    (hnew : startedBet = false → ∀ c L' v', Extended L size v.mem c L' v' → Q (fits c.addr) v') :
    Ends Ok image (if startedBet then do
        let h ← MonadState.get
        pure (again h.lMemRoot)
      else do
        let page ← append m size b.addr
        pure (if page = 0 then noMemory else fits page)) v Q := by
  cases startedBet with
  | true =>
    refine .get fun s hs => .pure ?_
    rw [show s.lMemRoot = v.lMemRoot from congrArg Heap.lMemRoot hs]
    exact hroot rfl
  | false =>
    refine .bind (append_ends hm hsize hv hL (fun hrefuses v' hv' hkeeps => ?_) ?_)
    · exact .pure (hrefused rfl hrefuses v' hv' hkeeps)
    · intro c L' v' hext
      refine .pure ?_
      rw [if_neg c.nonnull]
      exact hnew rfl c L' v' hext

section

variable {startedBet : Bool}

/-- Case 1. -/
theorem case1_ends (hm : Lawful m Ok image) (hsize : size.toNat ≤ maxSize) (hv : Represents v L)
    (hL : L.blocks = pre ++ b :: post) {Q : Turn → View → Prop}
    (hhop : ¬ b.HasGap size → ∀ d rest, post = d :: rest → Q (.hop d.addr startedBet) v)
    (hroot : startedBet = true → Q (.hop v.lMemRoot false) v)
    (hrefused : ¬ b.HasGap size → startedBet = false → post = [] →
      v.mem.Refuses size → ∀ v', Represents v' L → Keeps L v.mem v'.mem → Q .noMemory v')
    (hnew : ¬ b.HasGap size → startedBet = false → post = [] → ∀ c L' v',
      Extended L size v.mem c L' v' → Q (.fits c.addr) v') (hfits : Q (.fits b.addr) v) :
    Ends Ok image (case1 m size b.addr (BitVec.ofNat 64 b.free) startedBet) v Q := by
  have hb : b ∈ L.blocks := hL ▸ List.mem_append_right _ List.mem_cons_self
  have hmaj := (hv.blocks b hb).mapped_header
  refine .ite (fun hroom => .bind (ends_get hm ?_)) fun _ => .pure hfits
  have hgap : ¬ b.HasGap size := by
    intro hgap
    have hle := hgap.usage_le
    have hfree := b.free_lt
    unfold Block.free maxSize headerSize Minor.sizeof at *
    bv_omega
  rw [hv.next hL]
  cases post with
  | nil =>
    refine .ite (fun hne => absurd rfl hne) fun _ => ?_
    exact ends_lastBlock hm (Turn.hop · false) Turn.fits Turn.noMemory hsize hv hL hroot
      (fun h => hrefused hgap h rfl) fun h => hnew hgap h rfl
  | cons d rest =>
    exact .ite (fun _ => .pure (hhop hgap d rest rfl)) fun hzero => absurd d.nonnull hzero

/-- Case 5. -/
theorem case5_ends (hm : Lawful m Ok image) (hsize : size.toNat ≤ maxSize) (hv : Represents v L)
    (hL : L.blocks = pre ++ b :: post) {Q : Option (U64 × Bool) → View → Prop}
    (hhop : ∀ d rest, post = d :: rest → Q (some (d.addr, startedBet)) v)
    (hroot : startedBet = true → Q (some (v.lMemRoot, false)) v)
    (hrefused : startedBet = false → post = [] → v.mem.Refuses size →
      ∀ v', Represents v' L → Keeps L v.mem v'.mem → Q none v')
    (hnew : startedBet = false → post = [] → ∀ c L' v', Extended L size v.mem c L' v' →
      Q (some (c.addr, false)) v') :
    Ends Ok image (case5 m size b.addr startedBet) v Q := by
  have hb : b ∈ L.blocks := hL ▸ List.mem_append_right _ List.mem_cons_self
  have hmaj := (hv.blocks b hb).mapped_header
  refine .bind (ends_get hm ?_)
  rw [hv.next hL]
  cases post with
  | nil =>
    refine .ite (fun _ => ?_) fun hne => absurd rfl hne
    exact ends_lastBlock hm (fun p => some (p, false)) (fun p => some (p, false)) none hsize hv hL
      hroot (fun h => hrefused h rfl) fun h => hnew h rfl
  | cons d rest =>
    exact .ite (fun hzero => absurd hzero d.nonnull) fun _ => .pure (hhop d rest rfl)

end

/-- **In a new block** there is always room. -/
theorem Extended.place_ends (hm : Lawful m Ok image) (hsize : size.toNat ≤ maxSize)
    (hroom : req.toNat + 32 ≤ size.toNat) (hrounds : 0 < rounds) (hL : L.Settled)
    (hfull : ¬ L.HasGap size) (h : Extended L size i b L' v) {Q : Option U64 → Bool × View → Prop}
    (hQ : ∀ p v', Served L size req i p v' → Q (some p) (true, v')) :
    Calls Ok image (place m rounds size req b.addr) (flag, v) Q := by
  have hb : b ∈ L'.blocks := by
    rw [h.blocks]
    exact List.mem_append_right _ List.mem_cons_self
  have hroom' := h.room
  refine Liballoc.place_ends hm (h.represents.blocks b hb) ?_ hroom ?_ (fun _ => ?_)
    (fun hne _ => absurd h.empty hne) fun p v' hplaced => ?_
  · unfold maxSize at hsize
    omega
  · rw [h.empty]
    exact hrounds
  · omega
  · obtain ⟨x, L'', hxsize, hxreq, rfl, hstored, -⟩ := hplaced.stored h.represents h.blocks
      (fun c hc => hL c (by simpa using hc))
    exact hQ _ _ (.stored hxsize hxreq (h.stored hstored) fun hgap => absurd hgap hfull)

/-- The loop, once it has come to a new block. -/
theorem Extended.majorLoop_ends (hm : Lawful m Ok image) (hsize : size.toNat ≤ maxSize)
    (hroom : req.toNat + 32 ≤ size.toNat) (hrounds : 2 ≤ rounds) (hL : L.Settled)
    (hfull : ¬ L.HasGap size) (h : Extended L size i b L' v) {startedBet : Bool} {bestSize : U64}
    {Q : U64 → Bool × View → Prop}
    (hQ : ∀ p v', Served L size req i p v' → Q p (true, v')) :
    Calls Ok image (majorLoop m size req rounds b.addr startedBet bestSize) (flag, v) Q := by
  obtain ⟨rounds, rfl⟩ := Nat.exists_eq_add_of_le' (show 1 ≤ rounds by omega)
  have hb : b ∈ L'.blocks := by
    rw [h.blocks]
    exact List.mem_append_right _ List.mem_cons_self
  have hfits : ¬ BitVec.ofNat 64 b.free < size + Minor.sizeof := by
    have hfree := b.free_lt
    have hroom := h.room
    have husage : b.usage = headerSize := by rw [Block.usage, h.empty]; rfl
    unfold Block.free maxSize headerSize Minor.sizeof at *
    bv_omega
  rw [majorLoop, if_neg b.nonnull]
  refine .bind (calls_inner (ends_freeSpace hm (h.represents.blocks b hb) ?_))
  rw [Block.setWidth_free]
  refine .bind (calls_inner ?_)
  refine ends_remember h.represents hb fun best v' hmem _ hv' => .bind (calls_inner ?_)
  rw [case1, if_neg hfits]
  have h' : Extended L size i b L' v' :=
    ⟨h.empty, h.room, h.blocks, hv', hmem.symm ▸ h.keeps, h.new, hmem.symm ▸ h.dom⟩
  exact .pure (.bind (h'.place_ends hm hsize hroom (by omega) hL hfull fun p v'' hserved =>
    .pure (hQ p v'' hserved)))

/-- **The loop over the blocks**, from block `b` on.  The last time round there is no gap in the
blocks before. -/
theorem majorLoop_ends (hm : Lawful m Ok image) (hsize : size.toNat ≤ maxSize)
    (hroom : req.toNat + 32 ≤ size.toNat) (hv : Represents v L) (hset : L.Settled)
    (hL : L.blocks = pre ++ b :: post) {startedBet : Bool} {bestSize : U64}
    (hseen : startedBet = false → ∀ c ∈ pre, ¬ c.HasGap size)
    (hrounds : (if startedBet then L.blocks.length else 0) + post.length + L.pieces.length + 3
      ≤ rounds) {Q : U64 → Bool × View → Prop}
    (hQ : ∀ p v', Served L size req v.mem p v' → Q p (true, v')) :
    Calls Ok image (majorLoop m size req rounds b.addr startedBet bestSize) (flag, v) Q := by
  induction rounds generalizing pre b post v flag startedBet bestSize with
  | zero => omega
  | succ rounds ih =>
    have hb : b ∈ L.blocks := hL ▸ List.mem_append_right _ List.mem_cons_self
    rw [majorLoop, if_neg b.nonnull]
    refine .bind (calls_inner (ends_freeSpace hm (hv.blocks b hb) ?_))
    rw [Block.setWidth_free]
    refine .bind (calls_inner ?_)
    refine ends_remember hv hb fun best w hmem _ hw => .bind (calls_inner ?_)
    rw [← hmem] at hQ
    have hseen' : ¬ b.HasGap size → startedBet = false → ∀ c ∈ pre ++ [b], ¬ c.HasGap size := by
      intro hgap hbet c hc
      rcases List.mem_append.mp hc with hc | hc
      · exact hseen hbet c hc
      · exact List.mem_singleton.mp hc ▸ hgap
    have hfull : ¬ b.HasGap size → startedBet = false → post = [] → ¬ L.HasGap size := by
      rintro hgap hbet rfl ⟨c, hc, hgap'⟩
      exact hseen' hgap hbet c (hL ▸ hc) hgap'
    -- the ways on from a block without a gap
    have hhop : ¬ b.HasGap size → ∀ d rest, post = d :: rest →
        Calls Ok image (majorLoop m size req rounds d.addr startedBet best) (flag, w) Q := by
      rintro hgap d rest rfl
      have hnext : L.blocks = (pre ++ [b]) ++ d :: rest := by rw [hL, List.append_assoc]; rfl
      refine ih hw hnext (hseen' hgap) ?_ hQ
      rw [List.length_cons] at hrounds
      omega
    have hroot : startedBet = true →
        Calls Ok image (majorLoop m size req rounds w.lMemRoot false best) (flag, w) Q := by
      rintro rfl
      obtain ⟨c, rest, hrest⟩ := List.exists_cons_of_ne_nil (List.ne_nil_of_mem hb)
      rw [hw.root, hrest, List.map_cons, first_cons]
      have hfirst : false = false → ∀ d ∈ ([] : List Block), ¬ d.HasGap size :=
        fun _ d hd => absurd hd List.not_mem_nil
      refine ih hw (hrest.trans (List.nil_append _).symm) hfirst ?_ hQ
      rw [hrest, List.length_cons, if_pos rfl] at hrounds
      rw [if_neg Bool.false_ne_true]
      omega
    have hrefused : ¬ L.HasGap size → w.mem.Refuses size → ∀ w', Represents w' L →
        Keeps L w.mem w'.mem →
        Calls Ok image (liballocUnlock >>= fun _ => pure 0) (flag, w') Q :=
      fun hfull hrefuses w' hw' hkeeps =>
        .bind (calls_unlock (.pure (hQ 0 w' (.refused hrefuses hfull hw' hkeeps))))
    refine case1_ends hm hsize hw hL hhop hroot (fun hgap hbet hpost =>
      hrefused (hfull hgap hbet hpost)) (fun hgap hbet hpost c L' w' hext => ?_) ?_
    · exact .bind (hext.place_ends hm hsize hroom (by omega) hset (hfull hgap hbet hpost)
        fun p w'' hserved => .pure (hQ p w'' hserved))
    · have hpieces : b.pieces.length ≤ L.pieces.length := by
        rw [Layout.pieces, hL, List.flatMap_append, List.flatMap_cons]
        simp only [List.length_append]
        omega
      have hothers : ∀ c ∈ pre ++ post, c.pieces ≠ [] := fun c hc => hset c (hL ▸ mem_middle hc)
      refine .bind (place_ends hm (hw.blocks b hb) (by unfold maxSize at hsize; omega) hroom
        (by omega) (fun hempty => absurd hempty (hset b hb)) (fun _ hgap => .bind (calls_inner ?_))
        fun p w' hplaced => ?_)
      · refine case5_ends hm hsize hw hL (hhop hgap) hroot (fun hbet hpost =>
          hrefused (hfull hgap hbet hpost)) fun hbet hpost c L' w' hext => ?_
        exact hext.majorLoop_ends hm hsize hroom (by omega) hset (hfull hgap hbet hpost) hQ
      · obtain ⟨x, L', hxsize, hxreq, rfl, hstored, hdom⟩ := hplaced.stored hw hL hothers
        exact .pure (hQ _ _ (.stored hxsize hxreq hstored fun _ => hdom))

/-! ## The call -/

/-- Where the loop starts. -/
theorem startAt_ends (hm : Lawful m Ok image) (hv : Represents v L) (hL : L.blocks ≠ [])
    {Q : U64 × Bool × U64 → View → Prop}
    (h : ∀ pre b post startedBet best, L.blocks = pre ++ b :: post →
      (startedBet = false → pre = []) → Q (b.addr, startedBet, best) v) :
    Ends Ok image (startAt m size) v Q := by
  obtain ⟨c, rest, hrest⟩ := List.exists_cons_of_ne_nil hL
  have hroot : v.lMemRoot = c.addr := by rw [hv.root, hrest, List.map_cons, first_cons]
  refine .get fun s hs => ?_
  rw [show s.lMemRoot = v.lMemRoot from congrArg Heap.lMemRoot hs,
    show s.lBestBet = v.lBestBet from congrArg Heap.lBestBet hs, hroot]
  refine .ite (fun _ => .pure (h [] c rest _ _ hrest fun _ => rfl)) fun hbest => ?_
  obtain ⟨b, hb, hbet⟩ := List.mem_map.mp (hv.best.resolve_left hbest)
  obtain ⟨pre, post, hpost⟩ := List.append_of_mem hb
  rw [← hbet]
  refine .bind (ends_freeSpace hm (hv.blocks b hb) (.pure ?_))
  split_ifs
  · exact h pre b post _ _ hpost nofun
  · exact h [] c rest _ _ hrest fun _ => rfl

/-- As many rounds as a call may need: twice over the blocks, and once over the pieces of one. -/
def Layout.bound (L : Layout) : ℕ := 2 * L.blocks.length + L.pieces.length + 5

/-- **`kmalloc`.**  It returns, with interrupts on; what it returns is a new piece, or null if
there is no gap for it and the hook has no pages; and what was asked for before is as it
was. -/
theorem kmalloc_ends (hm : Lawful m Ok image) (hv : Represents v L) (hset : L.Settled)
    (hreq : req.toNat + 32 ≤ maxSize) (hrounds : L.bound ≤ rounds)
    {Q : U64 → Bool × View → Prop}
    (hQ : ∀ p v', Served L (req + 32) req v.mem p v' → Q p (true, v')) :
    Calls Ok image (kmalloc m rounds req) (flag, v) Q := by
  unfold Layout.bound at hrounds
  obtain ⟨rounds, rfl⟩ := Nat.exists_eq_add_of_le' (show 1 ≤ rounds by omega)
  have hsize : (req + 32).toNat = req.toNat + 32 := by
    unfold maxSize at hreq
    bv_omega
  have hmax : (req + 32).toNat ≤ maxSize := hsize ▸ hreq
  have hroom : req.toNat + 32 ≤ (req + 32).toNat := hsize.ge
  have hpos : req + 32 ≠ 0 := by
    intro h
    rw [h] at hroom
    exact absurd hroom (Nat.not_succ_le_zero _)
  have hfull : L.blocks = [] → ¬ L.HasGap (req + 32) := by
    rintro hL ⟨c, hc, -⟩
    exact List.not_mem_nil (hL ▸ hc)
  unfold kmalloc
  refine .bind (calls_lock (.ite (fun h => absurd h hpos) fun _ => ?_))
  refine .bind (calls_inner (memRoot_ends hm hmax hv (fun hL => ?_)
    (fun hL hrefuses w hw hkeeps => ?_) fun hL b L' w hext => ?_))
  · have hroot : v.lMemRoot ≠ 0 := by
      obtain ⟨c, rest, hrest⟩ := List.exists_cons_of_ne_nil hL
      rw [hv.root, hrest]
      exact c.nonnull
    refine .ite (fun h => absurd h hroot) fun _ => .bind (calls_inner ?_)
    refine startAt_ends hm hv hL fun pre b post startedBet best hpost hpre => ?_
    refine majorLoop_ends hm hmax hroom hv hset hpost (fun hbet c hc => ?_) ?_ hQ
    · exact absurd (hpre hbet ▸ hc) List.not_mem_nil
    have hlen : post.length ≤ L.blocks.length := by
      rw [hpost, List.length_append, List.length_cons]
      omega
    split_ifs <;> omega
  · refine .ite (fun _ => .bind (calls_unlock (.pure (hQ 0 w ?_)))) fun h => absurd rfl h
    exact .refused hrefuses (hfull hL) hw hkeeps
  · refine .ite (fun h => absurd h b.nonnull) fun _ => .bind (calls_inner ?_)
    have hblocks : L'.blocks = [b] := by rw [hext.blocks, hL]; rfl
    refine startAt_ends hm hext.represents (by rw [hblocks]; exact List.cons_ne_nil b [])
      fun pre c post startedBet best hpost _ => ?_
    obtain rfl : c = b := by
      rw [hblocks] at hpost
      exact List.mem_singleton.mp (hpost ▸ List.mem_append_right _ List.mem_cons_self)
    exact hext.majorLoop_ends hm hmax hroom (by omega) hset (hfull hL) hQ

/-! ## The pages there are -/

/-- **No page for nothing.**  As long as some block has a gap for the piece, `kmalloc` finds one,
and takes no page. -/
theorem kmalloc_reuses (hm : Lawful m Ok image) {s : Interruptible μ} (hok : Ok s.2.mem)
    (hv : Represents (s.2.map image) L) (hset : L.Settled) (hreq : req.toNat + 32 ≤ maxSize)
    (hgap : L.HasGap (req + 32)) (hrounds : L.bound ≤ rounds) :
    ∃ p s', kmalloc m rounds req s = some (p, s') ∧ p ≠ 0 ∧
      (image s'.2.mem).dom = (image s.2.mem).dom := by
  have hcalls : Calls Ok image (kmalloc m rounds req) (s.1, s.2.map image) fun p w =>
      p ≠ 0 ∧ w.2.mem.dom = (image s.2.mem).dom := by
    refine kmalloc_ends hm hv hset hreq hrounds fun p w hserved => ?_
    cases hserved with
    | refused _ hfull => exact absurd hgap hfull
    | stored _ _ hstored hreuse =>
      refine ⟨?_, hreuse hgap⟩
      have hx := hstored.pieces.mem_iff.mpr List.mem_cons_self
      obtain ⟨b, -, hxb⟩ := List.mem_flatMap.mp hx
      exact Block.ptr_ne_zero hxb
  obtain ⟨p, s', hrun, -, hp, hdom⟩ := hcalls s hok rfl
  exact ⟨p, s', hrun, hp, hdom⟩

/-- Sixteen pages at `0x10000`, with one piece for a request of 16 bytes. -/
def onePiece : Block where
  addr := 0x10000
  pages := 16
  pieces := [⟨0x10028, 48, 16, by decide, by decide⟩]
  nonnull := by decide
  small := by decide
  fits := by decide
  packed := ⟨by decide, by show _ ≤ _; decide⟩

/-- The headers of the block and the piece, and the byte before the pointer. -/
def onePieceBytes : Bytes := fun a =>
  ([0, 0, 0, 0, 0, 0, 0, 0, 0, 0, 0, 0, 0, 0, 0, 0,
    16, 0, 0, 0, 0, 0, 1, 0, 128, 0, 0, 0, 0, 0, 0, 0, 0x28, 0, 1, 0, 0, 0, 0, 0,
    0, 0, 0, 0, 0, 0, 0, 0, 0, 0, 0, 0, 0, 0, 0, 0, 0, 0, 1, 0, 0, 0, 0, 0,
    0xde, 0xc0, 1, 0xc0, 48, 0, 0, 0, 16, 0, 0, 0, 0, 0, 0, 0, 16] : List U8).getD
    (a - 0x10000).toNat 0

/-- The layout of this block. -/
def onePieceLayout : Layout := ⟨[onePiece], List.pairwise_singleton _ _⟩

theorem onePieceLayout_settled : onePieceLayout.Settled := by
  intro b hb
  obtain rfl := List.mem_singleton.mp hb
  exact List.cons_ne_nil _ _

/-- A heap of this block. -/
def onePieceHeap : Interruptible Flat :=
  (true, ⟨⟨onePieceBytes, 0x20000⟩, 0x10000, 0, 0x10000, 48, 0, 0, 0⟩)

theorem onePieceHeap_represents :
    Represents (onePieceHeap.2.map Flat.image) onePieceLayout := by
  refine ⟨rfl, ⟨by decide, by decide, trivial⟩, fun b hb => ?_, Or.inl rfl, rfl, rfl⟩
  obtain rfl := List.mem_singleton.mp hb
  refine ⟨fun a ha => ?_, by decide, by decide, by decide, ⟨by decide, by decide, trivial⟩,
    fun x hx => ?_⟩
  · have hlo : 0x10000 ≤ a.toNat := ha.1
    have hhi : a.toNat < 0x10000 + 4096 * 16 := ha.2
    exact ⟨by omega, by show _ < 0x20000; omega⟩
  · obtain rfl := List.mem_singleton.mp hx
    exact ⟨by decide, by decide, by decide, by decide, by decide⟩

/-- Behind the piece there is room for another one. -/
theorem kmalloc_reuses_onePiece : ∃ p s', kmalloc flat 8 16 onePieceHeap = some (p, s') ∧ p ≠ 0 ∧
    (Flat.image s'.2.mem).dom = (Flat.image onePieceHeap.2.mem).dom := by
  refine kmalloc_reuses flat_lawful ⟨by decide, by decide⟩ onePieceHeap_represents
    onePieceLayout_settled (by decide) ⟨onePiece, List.mem_singleton_self _, onePiece.pieces, [],
      (List.append_nil _).symm, ?_⟩ (by decide)
  decide

end Liballoc
