import HMalloc.Grants

/-!
The operations on one page conserve its blocks: popping, the local and the
remote push, collecting the remote list and carving fresh blocks each move
blocks between the three lists of a page in service, or add new ones. First on
the page alone, then on the store.
-/

namespace HMalloc

open Bytes Linked

theorem chain_head_lt {mem : Mem} {v : Nat} {xs : List Nat} (h : Chain (link mem) (ptr v) xs)
    (hlt : ∀ a ∈ xs, a < 2 ^ 64) : v < 2 ^ 64 := by
  cases xs with
  | nil =>
      have : v = 0 := by simpa using chain_nil.mp h
      omega
  | cons x xs =>
      have : v = x ∧ x ≠ 0 := by simpa using h.1
      have := hlt x (by simp)
      omega

/-- The walk along a chain ends at its last block with the number of blocks. -/
theorem walkTail_spec {mem : Mem} {xs : List Nat} {a t fuel n : Nat}
    (h : Chain (link mem) (ptr a) (xs ++ [t])) (hfuel : xs.length < fuel)
    (hn : n + xs.length < 2 ^ 32) : walkTail mem fuel a n = some (t, n + xs.length) := by
  induction xs generalizing a fuel n with
  | nil =>
      obtain ⟨fuel, rfl⟩ : ∃ k, fuel = k + 1 := ⟨fuel - 1, by simp at hfuel; omega⟩
      obtain ⟨ha, htail⟩ := h
      obtain ⟨rfl, _⟩ := ptr_eq_some.mp ha
      have hzero : readWord mem a = 0 := by simpa [link] using chain_nil.mp htail
      simp [walkTail, hzero]
  | cons x xs ih =>
      simp only [List.length_cons] at hfuel hn
      obtain ⟨fuel, rfl⟩ : ∃ k, fuel = k + 1 := ⟨fuel - 1, by omega⟩
      obtain ⟨ha, htail⟩ := h
      obtain ⟨rfl, _⟩ := ptr_eq_some.mp ha
      have hne : readWord mem a ≠ 0 := by
        intro hzero
        have hhead := Chain.head_eq htail
        rw [link, hzero, ptr_zero] at hhead
        cases xs <;> simp at hhead
      have hadd : Word.add 32 n 1 = n + 1 := Word.add_eq (by omega)
      rw [walkTail, if_neg hne, hadd, ih htail (by omega) (by omega), List.length_cons]
      congr 2
      omega

/-- The carving loop links the fresh blocks in front of the list. -/
theorem extendLoop_spec (start blockSize n : Nat) {mem : Mem} {head : Nat} {xs : List Nat}
    (h : Chain (link mem) (ptr head) xs) (hsize : 8 ≤ blockSize) (hpos : 0 < start)
    (hlt : ∀ i < n, start + i * blockSize < 2 ^ 64) (hxs : ∀ a ∈ xs, a < 2 ^ 64)
    (hout : ∀ a ∈ xs, a + 8 ≤ start ∨ start + n * blockSize ≤ a) :
    ∃ mem' head', extendLoop start blockSize n mem head = (mem', head') ∧
      Chain (link mem') (ptr head') ((List.range n).map (fun i => start + i * blockSize) ++ xs) ∧
      ∀ x, x < start ∨ start + n * blockSize ≤ x → mem' x = mem x := by
  induction n generalizing mem head xs with
  | zero => exact ⟨mem, head, rfl, h, fun x _ => rfl⟩
  | succ n ih =>
      have hmul : (n + 1) * blockSize = n * blockSize + blockSize := Nat.succ_mul n blockSize
      have hhead := chain_head_lt h hxs
      have hblk := hlt n (Nat.lt_succ_self n)
      -- The list after the block of this round is linked.
      have hpush : Chain (link (writeWord mem (start + n * blockSize) head))
          (ptr (start + n * blockSize)) ((start + n * blockSize) :: xs) := by
        rw [ptr_of_ne (by omega)]
        apply h.push
        · exact link_writeWord mem _ _ hhead
        · intro a ha
          have := hout a ha
          exact link_writeWord_disjoint mem _ _ _ (by omega)
      obtain ⟨mem', head', heq, hchain, hsame⟩ := ih hpush (fun i hi => hlt i (by omega))
        (by
          intro a ha
          rcases List.mem_cons.mp ha with rfl | ha
          · exact hblk
          · exact hxs a ha)
        (by
          intro a ha
          rcases List.mem_cons.mp ha with rfl | ha
          · omega
          · have := hout a ha
            omega)
      refine ⟨mem', head', heq, ?_, ?_⟩
      · rw [List.range_succ, List.map_append, List.append_assoc]
        exact hchain
      · intro x hx
        rw [hsame x (by omega)]
        exact writeWord_outside mem _ _ x (by omega)

namespace InService

variable {mem : Mem} {v : PageState} {g : PageGhost}

theorem block_lt (h : InService mem v g) (hlt : v.area + pageSize ≤ 2 ^ 64) {a : Nat}
    (ha : a ∈ g.free ∨ a ∈ g.remote ∨ a ∈ g.out) : a < 2 ^ 64 := by
  obtain ⟨i, hi, rfl⟩ := h.exists_slot ha
  have hb := h.slot_bounds hi
  have hs := h.block_size.2.1
  omega

/-- Two different blocks share no byte of their link words. -/
theorem links_disjoint (h : InService mem v g) {a b : Nat}
    (ha : a ∈ g.free ∨ a ∈ g.remote ∨ a ∈ g.out) (hb : b ∈ g.free ∨ b ∈ g.remote ∨ b ∈ g.out)
    (hne : a ≠ b) : a + 8 ≤ b ∨ b + 8 ≤ a := by
  obtain ⟨i, _, rfl⟩ := h.exists_slot ha
  obtain ⟨j, _, rfl⟩ := h.exists_slot hb
  have hd := h.slots_disjoint hne
  have hs := h.block_size.2.1
  omega

theorem free_ne_out (h : InService mem v g) {a p : Nat} (ha : a ∈ g.free ∨ a ∈ g.remote)
    (hp : p ∈ g.out) : a ≠ p :=
  (List.nodup_append.mp h.nodup).2.2 a (List.mem_append.mpr ha) p hp

theorem free_ne_remote (h : InService mem v g) {a b : Nat} (ha : a ∈ g.free)
    (hb : b ∈ g.remote) : a ≠ b :=
  (List.nodup_append.mp (List.nodup_append.mp h.nodup).1).2.2 a ha b hb

/-- `page_pop`. -/
theorem pop (h : InService mem v g) {b : Nat} {fs : List Nat} (hfree : g.free = b :: fs) :
    InService mem { v with free := readWord mem b, used := Word.add 32 v.used 1 }
      { g with free := fs, out := b :: g.out } := by
  have hchain := h.free
  have hused := h.used
  have hle := h.used_lt
  have hblocks := h.blocks
  rw [hfree] at hchain hblocks
  refine { h with blocks := ?_, used := ?_, free := hchain.2 }
  · refine List.Perm.trans ?_ hblocks
    simpa using @List.perm_middle _ b (fs ++ g.remote) g.out
  · simp only [List.length_cons]
    rw [Word.add_eq (by omega)]
    omega

/-- The local branch of `heap_free`. -/
theorem push (h : InService mem v g) (hpos : 0 < v.area) (hlt : v.area + pageSize ≤ 2 ^ 64)
    {p : Nat} (hp : p ∈ g.out) :
    InService (writeWord mem p v.free) { v with free := p, used := Word.sub 32 v.used 1 }
      { g with free := p :: g.free, out := g.out.erase p } := by
  have hhead := chain_head_lt h.free (fun a ha => h.block_lt hlt (Or.inl ha))
  have hlinks : ∀ a, a ∈ g.free ∨ a ∈ g.remote →
      link (writeWord mem p v.free) a = link mem a := by
    intro a ha
    apply link_writeWord_disjoint
    exact h.links_disjoint (by tauto) (Or.inr (Or.inr hp)) (h.free_ne_out ha hp)
  have hne : p ≠ 0 := by
    obtain ⟨i, hi, rfl⟩ := h.exists_slot (Or.inr (Or.inr hp))
    have := h.slot_bounds hi
    omega
  have hused := h.used
  have hle := h.used_lt
  have hlen := List.length_pos_of_mem hp
  refine { h with blocks := ?_, used := ?_, free := ?_, remote := ?_ }
  · refine List.Perm.trans ?_ h.blocks
    have hout : (g.free ++ g.remote ++ (p :: g.out.erase p)).Perm (g.free ++ g.remote ++ g.out) :=
      (List.perm_cons_erase hp).symm.append_left _
    refine List.Perm.trans ?_ hout
    simpa using (@List.perm_middle _ p (g.free ++ g.remote) (g.out.erase p)).symm
  · simp only [List.length_erase_of_mem hp]
    rw [Word.sub_eq (by omega) (by omega)]
    omega
  · change Chain _ (ptr p) _
    rw [ptr_of_ne hne]
    exact h.free.push (link_writeWord mem p v.free hhead) (fun a ha => hlinks a (Or.inl ha))
  · exact h.remote.congr (fun a ha => hlinks a (Or.inr ha))

/-- The successful exchange of `heap_free_remote`: the block holds the head it
is to be linked to. -/
theorem remotePush (h : InService mem v g) (hpos : 0 < v.area) {p : Nat} (hp : p ∈ g.out)
    (hlink : readWord mem p = v.threadFree) :
    InService mem { v with threadFree := p }
      { g with remote := p :: g.remote, out := g.out.erase p } := by
  have hne : p ≠ 0 := by
    obtain ⟨i, hi, rfl⟩ := h.exists_slot (Or.inr (Or.inr hp))
    have := h.slot_bounds hi
    omega
  have hused := h.used
  have hlen := List.length_pos_of_mem hp
  refine { h with blocks := ?_, used := ?_, remote := ?_ }
  · refine List.Perm.trans ?_ h.blocks
    have hout : (g.free ++ g.remote ++ (p :: g.out.erase p)).Perm (g.free ++ g.remote ++ g.out) :=
      (List.perm_cons_erase hp).symm.append_left _
    refine List.Perm.trans ?_ hout
    have hmid := (@List.perm_middle _ p g.remote (g.out.erase p)).symm
    simpa using hmid.append_left g.free
  · simp only [List.length_cons, List.length_erase_of_mem hp]
    omega
  · change Chain _ (ptr p) _
    rw [ptr_of_ne hne]
    refine h.remote.push ?_ (fun _ _ => rfl)
    rw [link, hlink]

/-- `page_collect` of a non-empty remote list. -/
theorem collect (h : InService mem v g) (hlt : v.area + pageSize ≤ 2 ^ 64) {rs : List Nat}
    {t : Nat} (hremote : g.remote = rs ++ [t]) :
    walkTail mem v.capacity v.threadFree 1 = some (t, g.remote.length) ∧
      InService (writeWord mem t v.free)
        { v with
          free := v.threadFree, used := Word.sub 32 v.used g.remote.length, threadFree := 0 }
        { g with free := g.remote ++ g.free, remote := [] } := by
  have hused := h.used
  have hle := h.used_lt
  have hblocks := h.blocks
  have hres := h.used_le
  have hcap := h.reserved
  have hchain := h.remote
  rw [hremote] at hchain
  have hlen : g.remote.length = rs.length + 1 := by simp [hremote]
  have ht : t ∈ g.remote := by simp [hremote]
  have hhead := chain_head_lt h.free (fun a ha => h.block_lt hlt (Or.inl ha))
  have hnod : (rs ++ [t]).Nodup := hchain.nodup
  have hlinks : ∀ a, (a ∈ g.free ∨ a ∈ g.remote) → a ≠ t →
      link (writeWord mem t v.free) a = link mem a := by
    intro a ha hne
    exact link_writeWord_disjoint mem t a v.free (h.links_disjoint (by tauto) (by tauto) hne)
  refine ⟨?_, { h with blocks := ?_, used := ?_, free := ?_, remote := ptr_zero }⟩
  · rw [walkTail_spec hchain (by omega) (by omega), hlen]
    congr 2
    omega
  · refine List.Perm.trans ?_ h.blocks
    simpa using (@List.perm_append_comm _ g.remote g.free).append_right g.out
  · simp only [List.length_nil, Nat.add_zero]
    rw [Word.sub_eq (by omega) (by omega)]
    omega
  · change Chain _ (ptr v.threadFree) (g.remote ++ g.free)
    rw [hremote]
    refine hchain.splice h.free (link_writeWord mem t v.free hhead) ?_ ?_
    · intro a ha
      apply hlinks a (Or.inr (by simp [hremote, ha]))
      rintro rfl
      exact (List.nodup_append.mp hnod).2.2 a ha a (by simp) rfl
    · intro a ha
      exact hlinks a (Or.inl ha) (h.free_ne_remote ha ht)

/-- `page_extend` with room left. -/
theorem extend (h : InService mem v g) (hpos : 0 < v.area) (hlt : v.area + pageSize ≤ 2 ^ 64)
    {n : Nat} (hn : v.reserved + n ≤ v.capacity) :
    ∃ mem' head,
      extendLoop (v.area + v.reserved * v.blockSize) v.blockSize n mem v.free = (mem', head) ∧
      InService mem' { v with free := head, reserved := v.reserved + n }
        { g with free := (List.range n).map (fun i => v.block (v.reserved + i)) ++ g.free } ∧
      ∀ x, x < v.block v.reserved ∨ v.block v.reserved + n * v.blockSize ≤ x → mem' x = mem x := by
  have hs := h.block_size.2.1
  -- The blocks carved before end where the fresh ones start.
  have hold : ∀ a, a ∈ g.free ∨ a ∈ g.remote → a + 8 ≤ v.area + v.reserved * v.blockSize := by
    intro a ha
    obtain ⟨i, hi, rfl⟩ := h.mem_blocks.mp (by tauto : a ∈ g.free ∨ a ∈ g.remote ∨ a ∈ g.out)
    have hmul : (i + 1) * v.blockSize ≤ v.reserved * v.blockSize := Nat.mul_le_mul_right _ hi
    rw [Nat.add_mul] at hmul
    simp only [PageState.block]
    omega
  have hblock : ∀ i, v.area + v.reserved * v.blockSize + i * v.blockSize =
      v.block (v.reserved + i) := by
    intro i
    simp only [PageState.block, Nat.add_mul]
    omega
  have hfresh : ∀ i < n, v.area + v.reserved * v.blockSize + i * v.blockSize < 2 ^ 64 := by
    intro i hi
    have hb := h.slot_bounds (i := v.reserved + i) (by omega)
    rw [hblock]
    omega
  obtain ⟨mem', head, heq, hchain, hsame⟩ :=
    extendLoop_spec (v.area + v.reserved * v.blockSize) v.blockSize n h.free (by omega) (by omega)
      hfresh
      (fun a ha => h.block_lt hlt (Or.inl ha)) (fun a ha => Or.inl (hold a (Or.inl ha)))
  simp only [hblock] at hchain
  refine ⟨mem', head, heq, { h with reserved := hn, blocks := ?_, free := hchain, remote := ?_ },
    fun x hx => hsame x (by simpa only [PageState.block] using hx)⟩
  · have hrange : ((List.range (v.reserved + n)).map v.block).Perm
        ((List.range n).map (fun i => v.block (v.reserved + i)) ++
          (List.range v.reserved).map v.block) := by
      rw [List.range_add, List.map_append, List.map_map]
      exact List.perm_append_comm
    refine List.Perm.trans ?_ hrange.symm
    simpa [List.append_assoc] using h.blocks.append_left _
  · apply h.remote.congr
    intro a ha
    apply link_congr
    intro x hlo hhi
    have := hold a (Or.inr ha)
    exact hsame x (by omega)

end InService

end HMalloc
