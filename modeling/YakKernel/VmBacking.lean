/-
# What the pieces of an entry stand for

An address of an entry designates an offset of an object and its amap, or a physical address.
`carve_entry` has to leave that as it was; what it does is said here for every outcome of the
allocations.
-/
import YakKernel.VmCarve

namespace Vm

open Prog

/-! ## Backing -/

/-- What an address is backed by. -/
inductive Backing where
  | object (object amap : Option ℕ) (offset : ℕ)
  | physical (pa : ℕ)
  | reserved
  deriving DecidableEq, Repr

/-- What an address of an entry is backed by, as `vm_handle_fault` sees it. -/
def MapEntry.backing (entry : MapEntry) (a : ℕ) : Backing :=
  let backingOffset := wadd (wsub a entry.base) entry.offset
  match entry.type with
  | .obj => .object entry.object entry.amap backingOffset
  | .mmio => .physical (wadd entry.mmioAddr backingOffset)
  | .reserved => .reserved

/-- What an entry says about all its addresses. -/
structure Attributes where
  protection : Prot
  maxProtection : Prot
  inheritance : Inheritance
  cache : ℕ
  deriving DecidableEq, Repr

def MapEntry.attributes (entry : MapEntry) : Attributes :=
  ⟨entry.protection, entry.maxProtection, entry.inheritance, entry.cache⟩

/-! ## Carving, whatever is allocated -/

variable {env : Env} {s s' : Vm} {c e : MapEntry} {m sb se a : ℕ} {R : Failure → Prop}

/-- The references taken for a piece leave the map, the heap and the clock alone. -/
theorem refPiece_keeps : (refPiece c).Ends env s
    (fun _ s' => SameMaps s s' ∧ s'.clock = s.clock) (fun _ => False) := by
  simp only [refPiece, vmObjectRef, vmAmapRef, ends_bind, ends_ite, ends_ifSome, ends_change,
    ends_pure]
  refine ⟨fun _ => ⟨fun o _ => ⟨fun a _ => ?_, fun _ => ?_⟩,
    fun _ => ⟨fun a _ => ?_, fun _ => ⟨SameMaps.rfl, trivial⟩⟩⟩, fun _ => ⟨SameMaps.rfl, trivial⟩⟩
  all_goals exact ⟨⟨.refl _, .refl _, .refl _⟩, rfl⟩

/-- What a part of `carve_entry` leaves alone: the page tables and the locks. -/
structure Recut (m : ℕ) (s s' : Vm) : Prop where
  pmap : (s'.maps m).pmap = (s.maps m).pmap
  others : ∀ m', m' ≠ m → s'.maps m' = s.maps m'
  held : s'.held = s.held

theorem Recut.refl : Recut m s s := ⟨rfl, fun _ _ => rfl, rfl⟩

theorem Recut.trans {s'' : Vm} (h : Recut m s s') (h' : Recut m s' s'') : Recut m s s'' :=
  ⟨h'.pmap.trans h.pmap, fun m' hm' => (h'.others m' hm').trans (h.others m' hm'),
    h'.held.trans h.held⟩

theorem Recut.setTree (tree : List MapEntry) (h : Recut m s s') :
    Recut m s (s'.setTree m tree) := by
  refine ⟨?_, fun m' hm' => ?_, h.held⟩
  · rw [setTree_maps, Function.update_self]
    exact h.pmap
  · rw [setTree_maps, Function.update_of_ne hm']
    exact h.others m' hm'

theorem SameMaps.recut (h : SameMaps s s') : Recut m s s' :=
  ⟨by rw [h.maps], fun m' _ => by rw [h.maps], h.held⟩

theorem carveLeft_ends : (carveLeft m c sb).Ends env s
    (fun r s' => Recut m s s' ∧
      ((c.base < sb → env.kmalloc s.clock = true) ∧ r = some (cutLeft c sb) ∧
          s'.tree m = (leftPieces c sb s.heapNext).foldl rbtInsert (s.tree m) ∧
          s'.heapNext = s.heapNext + (leftPieces c sb s.heapNext).length ∧
          s'.clock = s.clock + (leftPieces c sb s.heapNext).length ∨
        (c.base < sb ∧ env.kmalloc s.clock = false) ∧ r = none ∧ s'.tree m = s.tree m))
    (fun _ => False) := by
  unfold carveLeft
  by_cases hl : c.base < sb
  · rw [if_pos hl, ends_bind, ends_kmalloc_iff]
    constructor
    · intro halloc
      simp only [ends_bind, ends_change, ends_pure]
      refine refPiece_keeps.imp ?_
      rintro _ s' ⟨hs', hclock⟩
      have hkept := SameMaps.recut (m := m) hs'
      have hrecut : Recut m s s' := ⟨hkept.pmap, hkept.others, hkept.held⟩
      refine ⟨hrecut.setTree _, Or.inl ⟨fun _ => halloc, ?_, ?_, ?_, ?_⟩⟩
      · rw [cutLeft, if_pos hl]
      · rw [tree_setTree, hs'.tree_eq, leftPieces, if_pos hl]
        rfl
      · rw [leftPieces, if_pos hl]
        exact hs'.heapNext
      · rw [leftPieces, if_pos hl]
        exact hclock
    · intro hfail
      exact ⟨⟨rfl, fun _ _ => rfl, rfl⟩, Or.inr ⟨⟨hl, hfail⟩, rfl, rfl⟩⟩
  · rw [if_neg hl, ends_pure, cutLeft, if_neg hl, leftPieces, if_neg hl]
    exact ⟨Recut.refl, Or.inl ⟨fun h => absurd h hl, rfl, rfl, rfl, rfl⟩⟩

theorem carveRight_ends (hr : se < e.endAddr) : (carveRight m e sb se).Ends env s
    (fun r s' => Recut m s s' ∧
      (env.kmalloc s.clock = true ∧ r = some { e with endAddr := se } ∧
          s'.tree m = rbtInsert (s.tree m)
            (carvePiece e s.heapNext (wadd e.offset (wsub se sb)) se e.endAddr) ∨
        env.kmalloc s.clock = false ∧ r = none ∧ s'.tree m = s.tree m))
    (fun _ => False) := by
  unfold carveRight
  rw [if_pos hr, ends_bind, ends_kmalloc_iff]
  constructor
  · intro halloc
    simp only [ends_bind, ends_change, ends_pure]
    refine refPiece_keeps.imp ?_
    rintro _ s' ⟨hs', -⟩
    have hkept := SameMaps.recut (m := m) hs'
    have hrecut : Recut m s s' := ⟨hkept.pmap, hkept.others, hkept.held⟩
    refine ⟨hrecut.setTree _, Or.inl ⟨halloc, trivial, ?_⟩⟩
    rw [tree_setTree, hs'.tree_eq]
    rfl
  · intro hfail
    exact ⟨⟨rfl, fun _ _ => rfl, rfl⟩, Or.inr ⟨hfail, rfl, rfl⟩⟩

/-- The allocations that a cut needs succeed. -/
def CarveAllocates (env : Env) (clock : ℕ) (c : MapEntry) (sb : ℕ) : Prop :=
  (c.base < sb → env.kmalloc clock = true) ∧
    env.kmalloc (clock + if c.base < sb then 1 else 0) = true

theorem leftPieces_length (ptr : ℕ) :
    (leftPieces c sb ptr).length = if c.base < sb then 1 else 0 := by
  unfold leftPieces
  split
  · rfl
  · rfl

/-- **What `carve_entry` does** where its assertions hold: the cut, or, when an allocation fails,
the entry is gone and at most its left piece is in the tree. -/
theorem carveEntry_ends (h1 : c.base ≤ sb) (h2 : sb < c.endAddr) (h3 : c.base ≤ se)
    (h4 : se < c.endAddr) :
    (carveEntry m c sb se).Ends env s
      (fun r s' => Recut m s s' ∧
        (CarveAllocates env s.clock c sb ∧ r = (.success, middlePiece c sb se) ∧
            s'.tree m = carveTree (s.tree m) c sb se s.heapNext ∨
          ¬ CarveAllocates env s.clock c sb ∧ r.1 = .oom ∧
            (s'.tree m = rbtRemove (s.tree m) c ∨
              s'.tree m = (leftPieces c sb s.heapNext).foldl rbtInsert (rbtRemove (s.tree m) c))))
      (fun _ => False) := by
  simp only [carveEntry, ends_bind, ends_check, ends_change]
  refine ⟨fun _ => ⟨fun _ => ⟨fun _ => ?_, fun hn => hn (Or.inr h4)⟩, fun hn => hn ⟨h3, h4⟩⟩,
    fun hn => hn ⟨h1, h2⟩⟩
  refine carveLeft_ends.imp ?_
  rintro _ s₁ ⟨hrecut, ⟨halloc, rfl, ht, hheap, hclock⟩ | ⟨⟨hl, hfail⟩, rfl, ht⟩⟩
  · have hr : se < (cutLeft c sb).endAddr := by
      rw [cutLeft_endAddr]
      exact h4
    have hrecut₀ : Recut m s s₁ := (Recut.refl.setTree _).trans hrecut
    rw [leftPieces_length] at hclock
    rw [tree_setTree] at ht
    simp only [ends_bind]
    refine (carveRight_ends hr).imp ?_
    rintro _ s₂ ⟨hrecut', ⟨hright, rfl, ht'⟩ | ⟨hright, rfl, ht'⟩⟩
    · rw [hclock] at hright
      simp only [ends_bind, ends_change, ends_pure]
      refine ⟨(hrecut₀.trans hrecut').setTree _, Or.inl ⟨⟨halloc, hright⟩, rfl, ?_⟩⟩
      rw [tree_setTree, ht', ht, hheap, cutLeft_endAddr]
      rfl
    · rw [hclock] at hright
      simp only [ends_pure]
      refine ⟨hrecut₀.trans hrecut', Or.inr ⟨?_, trivial, Or.inr ?_⟩⟩
      · rintro ⟨-, hok⟩
        rw [show (s.setTree m (rbtRemove (s.tree m) c)).clock = s.clock from rfl] at hright
        rw [hright] at hok
        simp at hok
      · rw [ht', ht]
        rfl
  · simp only [ends_pure]
    refine ⟨(Recut.refl.setTree _).trans hrecut, Or.inr ⟨?_, trivial, Or.inl ?_⟩⟩
    · rintro ⟨hok, -⟩
      have hkmalloc := hok hl
      rw [show (s.setTree m (rbtRemove (s.tree m) c)).clock = s.clock from rfl] at hfail
      rw [hfail] at hkmalloc
      simp at hkmalloc
    · rw [ht, tree_setTree]

/-! ## Cuts -/

/-- A cut as its callers make it: a part of the entry that is neither empty nor all of it. -/
structure Cut (c : MapEntry) (sb se : ℕ) : Prop where
  base_le : c.base ≤ sb
  lt : sb < se
  le_end : se ≤ c.endAddr
  proper : c.base < sb ∨ se < c.endAddr
  end_lt : c.endAddr < 2 ^ 64

/-- The other entries of a tree are not empty and share no address with `c`. -/
def KeepOff (tree : List MapEntry) (c : MapEntry) : Prop :=
  ∀ e ∈ tree, e.ptr ≠ c.ptr → e.base < e.endAddr ∧ e.Apart c

/-- Every address of `c` is covered by an entry with the backing and the attributes of `c`. -/
def BackingKept (c : MapEntry) (tree : List MapEntry) : Prop :=
  ∀ a, c.Covers a →
    ∃ e ∈ tree, e.Covers a ∧ e.backing a = c.backing a ∧ e.attributes = c.attributes

section Cut

variable {tree : List MapEntry} {ptr : ℕ} {p : MapEntry}

theorem WellFormed.keepOff (hw : WellFormed tree) (hc : c ∈ tree) :
    KeepOff tree c := by
  intro e he hptr
  refine ⟨(hw.sound e he).lt, hw.apart e he c hc ?_⟩
  rintro rfl
  exact hptr rfl

theorem carveTree_sorted (h : KeyedTree.Sorted key tree) :
    KeyedTree.Sorted key (carveTree tree c sb se ptr) := by
  have hleft : KeyedTree.Sorted key
      ((leftPieces c sb ptr).foldl rbtInsert (rbtRemove tree c)) := by
    unfold leftPieces
    split
    · exact (h.filter _).insert
    · exact h.filter _
  exact hleft.insert.insert

/-- What is left of the tree when `c` is taken out has no key and no address in `c`. -/
theorem KeepOff.rest (h : KeepOff tree c) (he : e ∈ rbtRemove tree c) :
    (∀ a, c.base ≤ a → a < c.endAddr → e.base ≠ a) ∧ (∀ a, c.Covers a → ¬ e.Covers a) := by
  simp only [rbtRemove, List.mem_filter, decide_eq_true_eq] at he
  obtain ⟨hlt, hapart⟩ := h e he.1 he.2
  constructor
  · intro a h1 h2 hbase
    rcases hapart with h3 | h3
    · omega
    · omega
  · rintro a ⟨h1, h2⟩ ⟨h3, h4⟩
    rcases hapart with h5 | h5
    · omega
    · omega

theorem mem_leftTree (h : KeepOff tree c) (h1 : c.base < c.endAddr) :
    p ∈ (leftPieces c sb ptr).foldl rbtInsert (rbtRemove tree c) ↔
      p ∈ leftPieces c sb ptr ∨ p ∈ rbtRemove tree c := by
  unfold leftPieces
  split
  · rw [List.foldl_cons, List.foldl_nil, List.mem_singleton]
    apply KeyedTree.mem_insert_of_new
    intro e he
    show e.base ≠ (leftPiece c sb ptr).base
    rw [(leftPiece_fields c sb ptr).2.1]
    exact (h.rest he).1 c.base le_rfl h1
  · simp

/-- **The entries after a cut.** -/
theorem mem_carveTree (h : KeepOff tree c) (hcut : Cut c sb se) (hr : se < c.endAddr) :
    p ∈ carveTree tree c sb se ptr ↔
      p = middlePiece c sb se ∨ p ∈ outerPieces c sb se ptr ∨ p ∈ rbtRemove tree c := by
  obtain ⟨hbase, hlt, -, -, -⟩ := hcut
  have hmem := fun q => @mem_leftTree _ sb _ ptr q h (by omega)
  set right := rightPiece c sb se (ptr + (leftPieces c sb ptr).length) with hright
  have hrbase : right.base = se := (rightPiece_fields c sb se _).2.1
  have hmid : (middlePiece c sb se).base = sb := (middlePiece_fields se hbase).2.1
  have hinner : ∀ q, q ∈ rbtInsert ((leftPieces c sb ptr).foldl rbtInsert (rbtRemove tree c)) right
      ↔ q = right ∨ q ∈ leftPieces c sb ptr ∨ q ∈ rbtRemove tree c := by
    intro q
    rw [rbtInsert, KeyedTree.mem_insert_of_new, hmem]
    intro e he
    show e.base ≠ right.base
    rw [hrbase]
    rcases (hmem e).mp he with hl | hrest
    · obtain ⟨-, hlbase, -, -, -⟩ := mem_leftPieces hl
      omega
    · exact (h.rest hrest).1 se (by omega) hr
  rw [carveTree, rbtInsert, KeyedTree.mem_insert_of_new, hinner, outerPieces, List.mem_cons,
    ← hright, or_assoc]
  intro e he
  show e.base ≠ (middlePiece c sb se).base
  rw [hmid]
  rcases (hinner e).mp he with rfl | hl | hrest
  · omega
  · obtain ⟨-, hlbase, -, -, hlsb⟩ := mem_leftPieces hl
    omega
  · exact (h.rest hrest).1 sb (by omega) (by omega)

/-! ## Backing of the pieces -/

theorem wadd_comm_sub (off base : ℕ) : wadd (wsub a base) off = wadd off (wsub a base) := by
  rw [wadd, wadd, Nat.add_comm]

theorem carvePiece_attributes (c : MapEntry) (ptr off base endAddr : ℕ) :
    (carvePiece c ptr off base endAddr).attributes = c.attributes := by
  unfold carvePiece
  split
  · rfl
  · rfl

/-- A new piece whose offsets match has the backing of its entry; not so a piece of an MMIO
entry, whose `mmio_addr` stays zero. -/
theorem carvePiece_backed_iff {off base endAddr : ℕ} (hmmio : c.mmioAddr < 2 ^ 64)
    (ho : wadd off (wsub a base) = wadd c.offset (wsub a c.base)) :
    (carvePiece c ptr off base endAddr).backing a = c.backing a ↔
      (c.type = .mmio → c.mmioAddr = 0) := by
  cases htype : c.type with
  | obj => simp [carvePiece, initMapEntry, MapEntry.backing, htype, wadd_comm_sub, ho]
  | reserved => simp [carvePiece, initMapEntry, MapEntry.backing, htype]
  | mmio =>
    simp only [carvePiece, initMapEntry, MapEntry.backing, htype, reduceCtorEq, if_false,
      wadd_comm_sub, ho, Backing.physical.injEq, forall_const]
    unfold wadd
    omega

theorem cutLeft_backing (c : MapEntry) (h1 : c.base ≤ sb) (h2 : sb ≤ a) (h3 : a < 2 ^ 64) :
    (cutLeft c sb).backing a = c.backing a := by
  unfold cutLeft
  split
  · simp only [MapEntry.backing, wadd_comm_sub, wadd_wsub_split h1 h2 h3]
  · rfl

theorem cutLeft_keeps (c : MapEntry) (sb : ℕ) :
    (cutLeft c sb).attributes = c.attributes ∧ (cutLeft c sb).type = c.type ∧
      (cutLeft c sb).mmioAddr = c.mmioAddr := by
  unfold cutLeft
  split
  · exact ⟨rfl, rfl, rfl⟩
  · exact ⟨rfl, rfl, rfl⟩

theorem rightPiece_backed_iff (hcut : Cut c sb se) (hmmio : c.mmioAddr < 2 ^ 64) (ha : se ≤ a)
    (hlt : a < 2 ^ 64) :
    (rightPiece c sb se ptr).backing a = c.backing a ↔ (c.type = .mmio → c.mmioAddr = 0) := by
  obtain ⟨hbase, hse, -, -, -⟩ := hcut
  obtain ⟨-, htype, hmmio'⟩ := cutLeft_keeps c sb
  have hcbase : (cutLeft c sb).base = sb := (middlePiece_fields se hbase).2.1
  rw [← cutLeft_backing c hbase (by omega) hlt, ← htype, ← hmmio', rightPiece]
  apply carvePiece_backed_iff
  · rw [hmmio']
    exact hmmio
  · rw [hcbase]
    exact wadd_wsub_split hse.le ha hlt

/-- **The cut tree keeps the backing** unless the entry is an MMIO entry. -/
theorem carveTree_backingKept_iff (h : KeepOff tree c) (hcut : Cut c sb se)
    (hr : se < c.endAddr) (hmmio : c.mmioAddr < 2 ^ 64) :
    BackingKept c (carveTree tree c sb se ptr) ↔ (c.type = .mmio → c.mmioAddr = 0) := by
  have hend := hcut.end_lt
  have hlt := hcut.lt
  have hbase := hcut.base_le
  obtain ⟨-, m2, m3⟩ := middlePiece_fields se hbase
  obtain ⟨-, r2, r3⟩ := rightPiece_fields c sb se (ptr + (leftPieces c sb ptr).length)
  constructor
  · intro hkept
    -- the end of the cut is an address of the right piece alone
    obtain ⟨e, he, hcovers, hback, -⟩ := hkept se ⟨by omega, hr⟩
    rw [mem_carveTree h hcut hr, outerPieces, List.mem_cons] at he
    rcases he with rfl | (rfl | hl) | hrest
    · obtain ⟨-, hc2⟩ := hcovers
      omega
    · exact (rightPiece_backed_iff hcut hmmio le_rfl (by omega)).mp hback
    · obtain ⟨-, -, l3, -, -⟩ := mem_leftPieces hl
      obtain ⟨-, hc2⟩ := hcovers
      omega
    · exact absurd hcovers ((h.rest hrest).2 se ⟨by omega, hr⟩)
  · rintro hzero a ⟨ha1, ha2⟩
    simp only [mem_carveTree h hcut hr, outerPieces, List.mem_cons]
    rcases lt_or_ge a sb with hasb | hasb
    · have hleft : c.base < sb := by omega
      obtain ⟨-, l2, l3⟩ := leftPiece_fields c sb ptr
      refine ⟨leftPiece c sb ptr, Or.inr (Or.inl (Or.inr ?_)), ⟨by omega, by omega⟩, ?_, ?_⟩
      · rw [leftPieces, if_pos hleft]
        exact List.mem_singleton_self _
      · exact (carvePiece_backed_iff hmmio rfl).mpr hzero
      · exact carvePiece_attributes c ptr c.offset c.base sb
    · rcases lt_or_ge a se with hase | hase
      · refine ⟨middlePiece c sb se, Or.inl rfl, ⟨by omega, by omega⟩, ?_, ?_⟩
        · exact cutLeft_backing c hbase hasb (by omega)
        · exact (cutLeft_keeps c sb).1
      · refine ⟨_, Or.inr (Or.inl (Or.inl rfl)), ⟨by omega, by omega⟩, ?_, ?_⟩
        · exact (rightPiece_backed_iff hcut hmmio hase (by omega)).mpr hzero
        · rw [rightPiece, carvePiece_attributes]
          exact (cutLeft_keeps c sb).1

theorem not_backingKept_of_oom (h : KeepOff tree c) (hcut : Cut c sb se)
    {tree' : List MapEntry} (ht : tree' = rbtRemove tree c ∨
      tree' = (leftPieces c sb ptr).foldl rbtInsert (rbtRemove tree c)) :
    ¬ BackingKept c tree' := by
  obtain ⟨hbase, hlt, hle, -, -⟩ := hcut
  intro hkept
  have hsb : c.Covers sb := ⟨hbase, by omega⟩
  obtain ⟨e, he, hcovers, -, -⟩ := hkept sb hsb
  rcases ht with rfl | rfl
  · exact (h.rest he).2 sb hsb hcovers
  · rcases (mem_leftTree h (by omega)).mp he with hl | hrest
    · obtain ⟨-, -, l3, -, -⟩ := mem_leftPieces hl
      obtain ⟨-, hc2⟩ := hcovers
      omega
    · exact (h.rest hrest).2 sb hsb hcovers

theorem carveEntry_at_end {Q : Status × MapEntry → Vm → Prop} :
    ¬ (carveEntry m c sb c.endAddr).Ends env s Q (fun _ => False) := by
  simp only [carveEntry, ends_bind, ends_check]
  rintro ⟨hin, hout⟩
  by_cases h1 : c.base ≤ sb ∧ sb < c.endAddr
  · exact (hin h1).2 (fun h2 => absurd h2.2 (lt_irrefl _))
  · exact hout h1

end Cut

/-- **Splitting preserves backing** exactly where the cut ends before the entry does, nothing of
an MMIO entry is cut off, and the allocations that the cut needs succeed. -/
theorem carveEntry_backingKept_iff (h : KeepOff (s.tree m) c) (hcut : Cut c sb se)
    (hmmio : c.mmioAddr < 2 ^ 64) :
    (carveEntry m c sb se).Ends env s (fun r s' => r.1 = .success ∧ BackingKept c (s'.tree m))
        (fun _ => False) ↔
      se < c.endAddr ∧ (c.type = .mmio → c.mmioAddr = 0) ∧
        CarveAllocates env s.clock c sb := by
  rcases hcut.le_end.lt_or_eq with hr | rfl
  · have hcarve := @carveEntry_ends env s _ m _ _ hcut.base_le
      (hcut.lt.trans hr) (hcut.base_le.trans hcut.lt.le) hr
    constructor
    · intro hends
      obtain ⟨r, s', hrun, ⟨-, hkept⟩⟩ := hends.exists_ok
      obtain ⟨-, ⟨halloc, -, ht⟩ | ⟨-, -, ht⟩⟩ := hcarve.of_ok hrun
      · rw [ht] at hkept
        exact ⟨hr, (carveTree_backingKept_iff h hcut hr hmmio).mp hkept, halloc⟩
      · exact absurd hkept (not_backingKept_of_oom h hcut ht)
    · rintro ⟨-, hzero, halloc⟩
      refine hcarve.imp ?_
      rintro r s' ⟨-, ⟨-, rfl, ht⟩ | ⟨hno, -, -⟩⟩
      · rw [ht]
        exact ⟨rfl, (carveTree_backingKept_iff h hcut hr hmmio).mpr hzero⟩
      · exact absurd halloc hno
  · constructor
    · intro hends
      exact absurd hends carveEntry_at_end
    · rintro ⟨hr, -⟩
      exact absurd hr (lt_irrefl _)

/-! ## Two entries of three pages -/

/-- An object entry of three pages. -/
def objEntry : MapEntry :=
  { initMapEntry 1 0 0x1000 0x4000 ⟨true, true, false, true, false⟩ .shared 3 .obj with
    object := some 3 }

/-- An MMIO entry of three pages. -/
def mmioEntry : MapEntry :=
  { initMapEntry 1 0 0x1000 0x4000 ⟨true, true, false, false, false⟩ .none 0 .mmio with
    mmioAddr := 0xfee00000 }

theorem oneEntry_keepOff (c : MapEntry) : KeepOff ((oneEntry c).tree 1) c := by
  intro e he hptr
  have hec : e = c := List.mem_singleton.mp he
  rw [hec] at hptr
  exact absurd rfl hptr

theorem middleCut (h : c.base = 0x1000 ∧ c.endAddr = 0x4000) : Cut c 0x2000 0x3000 := by
  constructor <;> omega

/-- The middle page of the object entry is cut out. -/
theorem carveEntry_backingKept_middle :
    (carveEntry 1 objEntry 0x2000 0x3000).Ends (Env.alone (fun _ => none)) (oneEntry objEntry)
        (fun r s' => r.1 = .success ∧ BackingKept objEntry (s'.tree 1)) (fun _ => False) ↔
      0x3000 < objEntry.endAddr ∧ (objEntry.type = .mmio → objEntry.mmioAddr = 0) ∧
        CarveAllocates (Env.alone (fun _ => none)) (oneEntry objEntry).clock objEntry 0x2000 :=
  carveEntry_backingKept_iff (oneEntry_keepOff objEntry) (middleCut ⟨rfl, rfl⟩) (by decide)

/-- The middle page of the MMIO entry is cut out, and the pages next to it show the physical
pages 0 and 2. -/
theorem carveEntry_loses_mmio :
    KeepOff ((oneEntry mmioEntry).tree 1) mmioEntry ∧ Cut mmioEntry 0x2000 0x3000 ∧
      ∃ s', carveEntry 1 mmioEntry 0x2000 0x3000 (Env.alone (fun _ => none))
          (oneEntry mmioEntry) = .ok ((.success, middlePiece mmioEntry 0x2000 0x3000), s') ∧
        mmioEntry.backing 0x1000 = .physical 0xfee00000 ∧
        (s'.tree 1).map (fun e => (e.base, e.endAddr, e.backing e.base)) =
          [(0x1000, 0x2000, .physical 0), (0x2000, 0x3000, .physical 0xfee01000),
            (0x3000, 0x4000, .physical 0x2000)] ∧
        ¬ BackingKept mmioEntry (s'.tree 1) := by
  refine ⟨oneEntry_keepOff mmioEntry, middleCut ⟨rfl, rfl⟩, _, rfl, ?_, ?_, ?_⟩
  · decide
  · decide
  · intro hkept
    obtain ⟨e, he, hcovers, hback, -⟩ := hkept 0x1000 (by decide)
    revert e
    decide

end Vm
