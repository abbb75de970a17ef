/-
# Carving an entry

`carve_entry` replaces an entry by up to three pieces, where its assertions hold.  Dropping
the references of an entry, and taking those of its pieces, leaves every map alone.
-/
import YakKernel.VmTree

namespace Vm

open Prog

variable {tree : List MapEntry} {c e : MapEntry} {a : ℕ}

/-! ## What dropping references leaves alone -/

/-- No other thread interferes, and allocations succeed. -/
structure Env.Quiet (env : Env) : Prop where
  interfere : ∀ t s, env.interfere t s = s
  kmalloc : ∀ t, env.kmalloc t = true

/-- No other thread changes the state when a lock is granted. -/
def Env.Undisturbed (env : Env) : Prop := ∀ t s, env.interfere t s = s

/-- The maps, the locks held and the heap are the same. -/
structure SameMaps (s s' : Vm) : Prop where
  maps : s'.maps = s.maps
  held : s'.held = s.held
  heapNext : s'.heapNext = s.heapNext

variable {env : Env} {s s' s'' : Vm}

theorem SameMaps.rfl : SameMaps s s := ⟨.refl _, .refl _, .refl _⟩

theorem SameMaps.trans (h : SameMaps s s') (h' : SameMaps s' s'') : SameMaps s s'' :=
  ⟨h'.maps.trans h.maps, h'.held.trans h.held, h'.heapNext.trans h.heapNext⟩

theorem kfreeLock_same {l : Lock} (h : s.held l = none) :
    (kfreeLock l).Ends env s (fun _ s' => SameMaps s s') (fun _ => False) := by
  rw [kfreeLock, ends_change]
  refine ⟨.refl _, ?_, .refl _⟩
  rw [setHeld_held, ← h, Function.update_eq_self]

theorem anonPagerCleanup_same {o : ℕ} (h : s.held (.object o) = none) :
    (anonPagerCleanup o).Ends env s (fun _ s' => SameMaps s s') (fun _ => False) := by
  simp only [anonPagerCleanup, ends_bind, ends_getState]
  refine (Ends.forEach (I := fun _ s' => SameMaps s s') _ SameMaps.rfl ?_).imp ?_
  · intro elm l s' hs'
    rw [pageDeref, ends_change]
    exact hs'.trans ⟨.refl _, .refl _, .refl _⟩
  · intro _ s' hs'
    exact (kfreeLock_same (by rw [hs'.held, h])).imp (fun _ _ h' => hs'.trans h')

theorem vmObjectDeref_same {o : ℕ} (h : s.held (.object o) = none) :
    (vmObjectDeref o).Ends env s (fun _ s' => SameMaps s s') (fun _ => False) := by
  simp only [vmObjectDeref, ends_bind, ends_getState, ends_change, ends_ite, ends_pure]
  have h0 : ∀ object, SameMaps s (s.setObject o object) :=
    fun _ => ⟨.refl _, .refl _, .refl _⟩
  refine ⟨fun _ => ?_, fun _ => h0 _⟩
  exact (anonPagerCleanup_same (by rw [(h0 _).held, h])).imp (fun _ _ h' => (h0 _).trans h')

theorem vmAnonDeref_same {n : ℕ} (h : s.held (.anon n) = none) :
    (vmAnonDeref n).Ends env s (fun _ s' => SameMaps s s') (fun _ => False) := by
  simp only [vmAnonDeref, vmAnonFree, pageDeref, ends_bind, ends_getState, ends_change,
    ends_ite, ends_ifSome, ends_pure]
  refine ⟨fun _ => ⟨fun pg _ => ?_, fun _ => ?_⟩, fun _ => ⟨.refl _, .refl _, .refl _⟩⟩
  · refine (kfreeLock_same ?_).imp (fun _ _ h' => SameMaps.trans ⟨?_, ?_, ?_⟩ h')
    · exact h
    all_goals rfl
  · refine (kfreeLock_same ?_).imp (fun _ _ h' => SameMaps.trans ⟨?_, ?_, ?_⟩ h')
    · exact h
    all_goals rfl

theorem amapFreeAll_same {a : ℕ} (h : ∀ n, s.held (.anon n) = none) :
    (amapFreeAll a).Ends env s (fun _ s' => SameMaps s s') (fun _ => False) := by
  simp only [amapFreeAll, ends_bind, ends_getState]
  refine Ends.forEach (I := fun _ s' => SameMaps s s') _ SameMaps.rfl ?_
  intro ent l s' hs'
  rw [ends_bind]
  refine (vmAnonDeref_same (by rw [hs'.held, h])).imp ?_
  intro _ s'' hs''
  rw [ends_change]
  exact (hs'.trans hs'').trans ⟨.refl _, .refl _, .refl _⟩

/-- The amap's own mutex is taken and destroyed; the others are untouched. -/
theorem amapCleanup_same (hq : env.Quiet) {a : ℕ} (h : NoMutex s.held) :
    (amapCleanup a).Ends env s (fun _ s' => SameMaps s s') (fun _ => False) := by
  have ha : s.held (.amap a) = none := h _ (fun m => by simp)
  simp only [amapCleanup, acquire, ends_bind, ends_getState, ends_getEnv, ends_check,
    ends_change]
  refine ⟨fun _ => ?_, fun hn => hn ha⟩
  refine (amapFreeAll_same ?_).imp ?_
  · intro n
    simp [h (.anon n) (fun m => by simp)]
  intro _ s₁ h₁
  refine (vmObjectDeref_same ?_).imp ?_
  · rw [h₁.held]
    simp [h (.object _) (fun m => by simp)]
  intro _ s₂ h₂
  have h₁₂ := h₁.trans h₂
  rw [kfreeLock, ends_change]
  refine ⟨?_, ?_, ?_⟩
  · show s₂.maps = s.maps
    rw [h₁₂.maps]
    simp [hq.interfere]
  · rw [setHeld_held, h₁₂.held]
    simp only [setHeld_held, granted_held, Function.update_idem]
    rw [← ha, Function.update_eq_self]
  · show s₂.heapNext = s.heapNext
    rw [h₁₂.heapNext]
    simp [hq.interfere]

theorem vmAmapDeref_same (hq : env.Quiet) {a : ℕ} (h : NoMutex s.held) :
    (vmAmapDeref a).Ends env s (fun _ s' => SameMaps s s') (fun _ => False) := by
  simp only [vmAmapDeref, ends_bind, ends_getState, ends_change, ends_ite, ends_pure]
  have h0 : ∀ amap, SameMaps s (s.setAmap a amap) := fun _ => ⟨.refl _, .refl _, .refl _⟩
  refine ⟨fun _ => ?_, fun _ => h0 _⟩
  refine (amapCleanup_same hq ?_).imp (fun _ _ h' => (h0 _).trans h')
  exact h

theorem derefEntry_same (hq : env.Quiet) (h : NoMutex s.held) (hc : c.Sound) :
    (derefEntry c).Ends env s (fun _ s' => SameMaps s s') (fun _ => False) := by
  simp only [derefEntry, ends_ite, ends_pure]
  refine ⟨fun hobj => ?_, fun _ => SameMaps.rfl⟩
  cases ho : c.object with
  | none => exact absurd ho (hc.object hobj)
  | some o =>
    simp only [ends_bind, ends_ifSome]
    refine ⟨fun a _ => ?_, fun _ => ?_⟩
    · refine (vmAmapDeref_same hq h).imp ?_
      intro _ s₁ h₁
      refine (vmObjectDeref_same ?_).imp (fun _ _ h₂ => h₁.trans h₂)
      rw [h₁.held]
      exact h _ (fun m => by simp)
    · exact vmObjectDeref_same (h _ (fun m => by simp))

theorem refPiece_same : (refPiece c).Ends env s (fun _ s' => SameMaps s s') (fun _ => False) := by
  simp only [refPiece, vmObjectRef, vmAmapRef, ends_bind, ends_ite, ends_ifSome, ends_change,
    ends_pure]
  refine ⟨fun _ => ⟨fun o _ => ⟨fun a _ => ?_, fun _ => ?_⟩,
    fun _ => ⟨fun a _ => ?_, fun _ => SameMaps.rfl⟩⟩, fun _ => SameMaps.rfl⟩
  all_goals exact ⟨.refl _, .refl _, .refl _⟩

/-! ## Carving -/

/-- The entry as `carve_entry` leaves it when the left piece is cut off. -/
def cutLeft (entry : MapEntry) (splitBase : ℕ) : MapEntry :=
  if entry.base < splitBase then
    { entry with base := splitBase, offset := wadd entry.offset (wsub splitBase entry.base) }
  else entry

/-- The left piece. -/
def leftPiece (entry : MapEntry) (splitBase ptr : ℕ) : MapEntry :=
  carvePiece entry ptr entry.offset entry.base splitBase

/-- The right piece. -/
def rightPiece (entry : MapEntry) (splitBase splitEnd ptr : ℕ) : MapEntry :=
  carvePiece (cutLeft entry splitBase) ptr
    (wadd (cutLeft entry splitBase).offset (wsub splitEnd splitBase)) splitEnd entry.endAddr

/-- The piece in the middle: the entry itself. -/
def middlePiece (entry : MapEntry) (splitBase splitEnd : ℕ) : MapEntry :=
  { cutLeft entry splitBase with endAddr := splitEnd }

/-- The left pieces that are needed. -/
def leftPieces (entry : MapEntry) (splitBase ptr : ℕ) : List MapEntry :=
  if entry.base < splitBase then [leftPiece entry splitBase ptr] else []

/-- The tree after the cuts, in the order in which the source inserts the pieces; new pieces
take the addresses from `ptr` on. -/
def carveTree (tree : List MapEntry) (entry : MapEntry) (splitBase splitEnd ptr : ℕ) :
    List MapEntry :=
  let left := leftPieces entry splitBase ptr
  let right := rightPiece entry splitBase splitEnd (ptr + left.length)
  rbtInsert (rbtInsert (left.foldl rbtInsert (rbtRemove tree entry)) right)
    (middlePiece entry splitBase splitEnd)

theorem cutLeft_endAddr (entry : MapEntry) (splitBase : ℕ) :
    (cutLeft entry splitBase).endAddr = entry.endAddr := by
  unfold cutLeft
  split <;> rfl

theorem SameMaps.tree_eq (h : SameMaps s s') (m : ℕ) : s'.tree m = s.tree m := by
  rw [Vm.tree, Vm.tree, h.maps]

theorem ends_kmalloc_iff {Q : Option ℕ → Vm → Prop} {R : Failure → Prop} :
    kmalloc.Ends env s Q R ↔
      (env.kmalloc s.clock = true →
        Q (some s.heapNext) { s.tick with heapNext := s.heapNext + 1 }) ∧
      (env.kmalloc s.clock = false → Q none s.tick) := by
  unfold kmalloc
  rw [ends_bind, ends_getEnv, ends_bind, ends_getState, ends_bind, ends_change]
  cases h : env.kmalloc s.clock
  · simp
  · simp

theorem ends_kmalloc (hq : env.Quiet) {Q : Option ℕ → Vm → Prop} {R : Failure → Prop} :
    kmalloc.Ends env s Q R ↔
      Q (some s.heapNext) { s.tick with heapNext := s.heapNext + 1 } := by
  rw [ends_kmalloc_iff]
  simp [hq.kmalloc]

theorem carveLeft_spec (hq : env.Quiet) {m sb : ℕ} :
    (carveLeft m c sb).Ends env s
      (fun r s' => r = some (cutLeft c sb) ∧
        s'.tree m = (leftPieces c sb s.heapNext).foldl rbtInsert (s.tree m) ∧
        s'.held = s.held ∧
        s'.heapNext = s.heapNext + (leftPieces c sb s.heapNext).length)
      (fun _ => False) := by
  unfold carveLeft
  by_cases hl : c.base < sb
  · rw [if_pos hl, ends_bind, ends_kmalloc hq]
    simp only [ends_bind, ends_change, ends_pure]
    refine refPiece_same.imp ?_
    intro _ s' hs'
    refine ⟨by rw [cutLeft, if_pos hl], ?_, hs'.held, ?_⟩
    · rw [tree_setTree, hs'.tree_eq, leftPieces, if_pos hl]
      rfl
    · rw [leftPieces, if_pos hl]
      exact hs'.heapNext
  · rw [if_neg hl, ends_pure, cutLeft, if_neg hl, leftPieces, if_neg hl]
    exact ⟨rfl, rfl, rfl, rfl⟩

theorem carveRight_spec (hq : env.Quiet) {m sb se : ℕ} (hr : se < e.endAddr) :
    (carveRight m e sb se).Ends env s
      (fun r s' => r = some { e with endAddr := se } ∧
        s'.tree m = rbtInsert (s.tree m)
          (carvePiece e s.heapNext (wadd e.offset (wsub se sb)) se e.endAddr) ∧
        s'.held = s.held ∧ s'.heapNext = s.heapNext + 1)
      (fun _ => False) := by
  unfold carveRight
  rw [if_pos hr, ends_bind, ends_kmalloc hq]
  simp only [ends_bind, ends_change, ends_pure]
  refine refPiece_same.imp ?_
  intro _ s' hs'
  refine ⟨trivial, ?_, hs'.held, hs'.heapNext⟩
  rw [tree_setTree, hs'.tree_eq]
  rfl

/-- **What `carve_entry` does** where its assertions hold. -/
theorem carveEntry_spec (hq : env.Quiet) {m sb se : ℕ} (h1 : c.base ≤ sb)
    (h2 : sb < c.endAddr) (h3 : c.base ≤ se) (h4 : se < c.endAddr) :
    (carveEntry m c sb se).Ends env s
      (fun r s' => r = (.success, middlePiece c sb se) ∧
        s'.tree m = carveTree (s.tree m) c sb se s.heapNext ∧ s'.held = s.held ∧
        s'.heapNext = s.heapNext + (leftPieces c sb s.heapNext).length + 1)
      (fun _ => False) := by
  simp only [carveEntry, ends_bind, ends_check, ends_change]
  refine ⟨fun _ => ⟨fun _ => ⟨fun _ => ?_, ?_⟩, ?_⟩, ?_⟩
  · refine (carveLeft_spec hq).imp ?_
    rintro _ s₁ ⟨rfl, ht₁, hh₁, hn₁⟩
    have hr : se < (cutLeft c sb).endAddr := by
      rw [cutLeft_endAddr]
      exact h4
    rw [ends_bind]
    refine (carveRight_spec hq hr).imp ?_
    rintro _ s₂ ⟨rfl, ht₂, hh₂, hn₂⟩
    simp only [ends_bind, ends_change, ends_pure, tree_setTree]
    refine ⟨rfl, ?_, hh₂.trans hh₁, ?_⟩
    · rw [ht₂, ht₁, hn₁, cutLeft_endAddr, tree_setTree]
      rfl
    · show s₂.heapNext = _
      rw [hn₂, hn₁]
      rfl
  · intro hn
    exact hn (Or.inr h4)
  · intro hn
    exact hn ⟨h3, h4⟩
  · intro hn
    exact hn ⟨h1, h2⟩

/-! ## The pieces -/

theorem wadd_wsub_split {off base sb a : ℕ} (h1 : base ≤ sb) (h2 : sb ≤ a) (h3 : a < 2 ^ 64) :
    wadd (wadd off (wsub sb base)) (wsub a sb) = wadd off (wsub a base) := by
  unfold wadd wsub
  omega

theorem cutLeft_view (c : MapEntry) {sb : ℕ} (h1 : c.base ≤ sb) (h2 : sb ≤ a) (h3 : a < 2 ^ 64) :
    (cutLeft c sb).view a = c.view a := by
  unfold cutLeft
  split
  · simp only [MapEntry.view, wadd_wsub_split h1 h2 h3]
  · rfl

theorem carvePiece_backing (hs : c.Sound) (ptr off base endAddr : ℕ) :
    (carvePiece c ptr off base endAddr).object = c.object ∧
      (carvePiece c ptr off base endAddr).amap = c.amap := by
  unfold carvePiece
  by_cases hobj : c.type = .obj
  · simp [hobj]
  · obtain ⟨h1, h2⟩ := hs.no_object hobj
    simp [hobj, h1, h2, initMapEntry]

theorem carvePiece_fields (c : MapEntry) (ptr off base endAddr : ℕ) :
    (carvePiece c ptr off base endAddr).ptr = ptr ∧
      (carvePiece c ptr off base endAddr).base = base ∧
      (carvePiece c ptr off base endAddr).endAddr = endAddr ∧
      (carvePiece c ptr off base endAddr).type = c.type := by
  unfold carvePiece
  split
  · exact ⟨rfl, rfl, rfl, rfl⟩
  · exact ⟨rfl, rfl, rfl, rfl⟩

theorem carvePiece_view {ptr off base endAddr : ℕ} (hs : c.Sound)
    (ho : wadd off (wsub a base) = wadd c.offset (wsub a c.base)) :
    (carvePiece c ptr off base endAddr).view a = c.view a := by
  obtain ⟨h1, h2⟩ := carvePiece_backing hs ptr off base endAddr
  have h3 : (carvePiece c ptr off base endAddr).view a
      = { c.view a with
          object := (carvePiece c ptr off base endAddr).object
          amap := (carvePiece c ptr off base endAddr).amap
          offset := wadd off (wsub a base) } := by
    unfold carvePiece
    split
    · rfl
    · rfl
  rw [h3, h1, h2, ho]
  rfl

theorem carvePiece_sound {ptr off base endAddr : ℕ} (hs : c.Sound) (hlt : base < endAddr)
    (hb : IsAligned base) (he : IsAligned endAddr) (hend : endAddr < 2 ^ 64) :
    (carvePiece c ptr off base endAddr).Sound := by
  obtain ⟨-, h2, h3, h4⟩ := carvePiece_fields c ptr off base endAddr
  obtain ⟨h5, h6⟩ := carvePiece_backing hs ptr off base endAddr
  constructor
  · rw [h2, h3]
    exact hlt
  · rw [h2]
    exact hb
  · rw [h3]
    exact he
  · rw [h3]
    exact hend
  · rw [h4, h5]
    exact hs.object
  · rw [h4, h5, h6]
    exact hs.no_object

section Split

variable {sb se ptr : ℕ}

theorem middlePiece_sound (hs : c.Sound) (h1 : c.base ≤ sb) (h2 : sb < se)
    (h3 : se < c.endAddr) (hb : IsAligned sb) (he : IsAligned se) :
    (middlePiece c sb se).Sound := by
  have hlt := hs.end_lt
  unfold middlePiece cutLeft
  split
  · exact ⟨h2, hb, he, h3.trans hlt, hs.object, hs.no_object⟩
  · exact ⟨h1.trans_lt h2, hs.base_aligned, he, h3.trans hlt, hs.object, hs.no_object⟩

theorem middlePiece_fields (se : ℕ) (h1 : c.base ≤ sb) :
    (middlePiece c sb se).ptr = c.ptr ∧ (middlePiece c sb se).base = sb ∧
      (middlePiece c sb se).endAddr = se := by
  unfold middlePiece cutLeft
  split
  · exact ⟨rfl, rfl, rfl⟩
  · refine ⟨rfl, ?_, rfl⟩
    show c.base = sb
    omega

theorem rightPiece_fields (c : MapEntry) (sb se ptr : ℕ) :
    (rightPiece c sb se ptr).ptr = ptr ∧ (rightPiece c sb se ptr).base = se ∧
      (rightPiece c sb se ptr).endAddr = c.endAddr := by
  obtain ⟨h1, h2, h3, -⟩ := carvePiece_fields (cutLeft c sb) ptr
    (wadd (cutLeft c sb).offset (wsub se sb)) se c.endAddr
  exact ⟨h1, h2, h3⟩

theorem leftPiece_fields (c : MapEntry) (sb ptr : ℕ) :
    (leftPiece c sb ptr).ptr = ptr ∧ (leftPiece c sb ptr).base = c.base ∧
      (leftPiece c sb ptr).endAddr = sb := by
  obtain ⟨h1, h2, h3, -⟩ := carvePiece_fields c ptr c.offset c.base sb
  exact ⟨h1, h2, h3⟩

theorem cutLeft_sound (hs : c.Sound) (h2 : sb < c.endAddr) (hb : IsAligned sb) :
    (cutLeft c sb).Sound := by
  unfold cutLeft
  split
  · exact ⟨h2, hb, hs.end_aligned, hs.end_lt, hs.object, hs.no_object⟩
  · exact hs

theorem rightPiece_view (hs : c.Sound) (h1 : c.base ≤ sb) (h2 : sb ≤ se)
    (h3 : se < c.endAddr) (hb : IsAligned sb) (ha : (rightPiece c sb se ptr).Covers a) :
    (rightPiece c sb se ptr).view a = c.view a := by
  obtain ⟨-, hbase, hend⟩ := rightPiece_fields c sb se ptr
  obtain ⟨ha1, ha2⟩ := ha
  have hlt := hs.end_lt
  rw [← cutLeft_view c h1 (by omega) (by omega)]
  refine carvePiece_view (cutLeft_sound hs (by omega) hb) ?_
  have hbase' : (cutLeft c sb).base = sb := (middlePiece_fields se h1).2.1
  rw [hbase']
  exact wadd_wsub_split h2 (by omega) (by omega)

theorem leftPieces_piecesOf (ptr : ℕ) (hs : c.Sound) (h1 : sb < c.endAddr) (hb : IsAligned sb) :
    PiecesOf c ptr (leftPieces c sb ptr) := by
  obtain ⟨l1, l2, l3⟩ := leftPiece_fields c sb ptr
  unfold leftPieces
  split
  · rename_i hl
    refine PiecesOf.nil.cons ?_ ⟨by omega, by omega⟩ (by simp) ?_ (by omega) (by simp)
    · exact carvePiece_sound hs hl hs.base_aligned hb (h1.trans hs.end_lt)
    · intro a _
      exact carvePiece_view hs rfl
  · exact PiecesOf.nil

theorem mem_leftPieces {p : MapEntry} (hp : p ∈ leftPieces c sb ptr) :
    p.ptr = ptr ∧ p.base = c.base ∧ p.endAddr = sb ∧
      (leftPieces c sb ptr).length = 1 ∧ c.base < sb := by
  obtain ⟨l1, l2, l3⟩ := leftPiece_fields c sb ptr
  by_cases hl : c.base < sb
  · rw [leftPieces, if_pos hl, List.mem_singleton] at hp
    rw [leftPieces, if_pos hl, hp]
    exact ⟨l1, l2, l3, rfl, hl⟩
  · rw [leftPieces, if_neg hl] at hp
    exact absurd hp List.not_mem_nil

/-- The pieces outside the cut. -/
def outerPieces (entry : MapEntry) (splitBase splitEnd ptr : ℕ) : List MapEntry :=
  rightPiece entry splitBase splitEnd (ptr + (leftPieces entry splitBase ptr).length) ::
    leftPieces entry splitBase ptr

theorem outerPieces_piecesOf (ptr : ℕ) (hs : c.Sound) (h1 : c.base ≤ sb) (h2 : sb ≤ se)
    (h3 : se < c.endAddr) (hb : IsAligned sb) (he : IsAligned se) :
    PiecesOf c ptr (outerPieces c sb se ptr) := by
  obtain ⟨r1, r2, r3⟩ := rightPiece_fields c sb se
    (ptr + (leftPieces c sb ptr).length)
  refine (leftPieces_piecesOf ptr hs (by omega) hb).cons ?_ ⟨by omega, by omega⟩ ?_ ?_
    (by omega) ?_
  · exact carvePiece_sound (cutLeft_sound hs (by omega) hb) h3 he hs.end_aligned hs.end_lt
  · intro q hq
    obtain ⟨-, -, q3, -, -⟩ := mem_leftPieces hq
    right
    omega
  · intro a ha
    exact rightPiece_view hs h1 h2 h3 hb ha
  · intro q hq
    obtain ⟨q1, -, -, q4, -⟩ := mem_leftPieces hq
    omega

/-- **The pieces of a cut** that is not empty. -/
theorem splitPieces (hs : c.Sound) (hc : c.ptr < ptr) (h1 : c.base ≤ sb) (h2 : sb < se)
    (h3 : se < c.endAddr) (hb : IsAligned sb) (he : IsAligned se) :
    PiecesOf c ptr (middlePiece c sb se :: outerPieces c sb se ptr) := by
  obtain ⟨m1, m2, m3⟩ := middlePiece_fields se h1
  obtain ⟨r1, r2, r3⟩ := rightPiece_fields c sb se
    (ptr + (leftPieces c sb ptr).length)
  refine (outerPieces_piecesOf ptr hs h1 h2.le h3 hb he).cons ?_ ⟨by omega, by omega⟩ ?_ ?_
    (by omega) ?_
  · exact middlePiece_sound hs h1 h2 h3 hb he
  · intro q hq
    rcases List.mem_cons.mp hq with rfl | hq
    · left
      omega
    · obtain ⟨-, -, q3, -, -⟩ := mem_leftPieces hq
      right
      omega
  · intro a ha
    obtain ⟨ha1, ha2⟩ := ha
    have hlt := hs.end_lt
    exact cutLeft_view c h1 (by omega) (by omega)
  · intro q hq
    rcases List.mem_cons.mp hq with rfl | hq
    · omega
    · obtain ⟨q1, -, -, -, -⟩ := mem_leftPieces hq
      omega

/-- **The tree after a cut** that is not empty. -/
theorem carveTree_replaced (hw : WellFormed tree) (hc : c ∈ tree)
    (hf : ∀ e ∈ tree, e.ptr < ptr) (h1 : c.base ≤ sb) (h2 : sb < se) (h3 : se < c.endAddr)
    (hb : IsAligned sb) (he : IsAligned se) :
    Replaced tree c (middlePiece c sb se :: outerPieces c sb se ptr)
      (carveTree tree c sb se ptr) := by
  have hs := hw.sound c hc
  have hleft : Replaced tree c (leftPieces c sb ptr)
      ((leftPieces c sb ptr).foldl rbtInsert (rbtRemove tree c)) := by
    have hpl := leftPieces_piecesOf ptr hs (by omega) hb
    unfold leftPieces at *
    split
    · rename_i hl
      rw [if_pos hl] at hpl
      exact (Replaced.remove hw hc).insert hw hc hpl
    · exact Replaced.remove hw hc
  have hright := hleft.insert hw hc (outerPieces_piecesOf ptr hs h1 h2.le h3 hb he)
  exact hright.insert hw hc (splitPieces hs (hf c hc) h1 h2 h3 hb he)

end Split

end Vm
