/-
# Runs of tmpfs

The link count of every node but the root of a file system is the number of entries that refer to
it, and the entries `.` and `..` are right, as long as no call fails at the last insertion of a node
that is not a directory.
-/
import YakKernel.Tmpfs

namespace Tmpfs

open Vfs

variable {s s' : State} {parent n x d : ℕ} {type : VType} {name : Name} {allocs : Allocs}
  {node parentNode : Node} {rv : Status}

/-! ## What is counted -/

/-- The number of entries for a node: its count, and one more for the root of a file system. -/
def State.entries (s : State) (x : ℕ) : ℕ :=
  match s.nodes x with
  | none => 0
  | some node => if s.root node.vfs = some x then node.nlinks + 1 else node.nlinks

/-- `p` is the directory that `d` was made in. -/
def State.IsParent (s : State) (p d : ℕ) : Prop :=
  p ≠ d ∧ ∃ node name, s.nodes p = some node ∧ node.children name = some d ∧
    (name ≠ dotdot ∨ s.root node.vfs = some p)

/-- What holds between the calls. -/
structure Linked (s : State) : Prop where
  counted : ∀ x, Tally (fun e => s.entry e = some x) (s.entries x)
  dotEntry : ∀ d node, s.nodes d = some node → node.type = .vdir → node.children dot = some d
  dotdotEntry : ∀ d node, s.nodes d = some node → node.type = .vdir → s.root node.vfs ≠ some d →
    ∃ p, s.IsParent p d ∧ node.children dotdot = some p
  rootNode : ∀ f r, s.root f = some r → ∃ node, s.nodes r = some node ∧ node.vfs = f
  addrBound : ∀ x, (s.nodes x).isSome → x < s.nextAddr
  vfsBound : ∀ x node, s.nodes x = some node → node.vfs < s.nextVfs

theorem tally_update {f : ℕ × Name → Option ℕ} {c : ℕ → ℕ} {e : ℕ × Name}
    (h : ∀ x, Tally (fun e => f e = some x) (c x)) (hnone : f e = none) (y : ℕ) (x : ℕ) :
    Tally (fun e' => Function.update f e (some y) e' = some x)
      (Function.update c y (c y + 1) x) := by
  by_cases hx : x = y
  · subst hx
    rw [Function.update_self]
    exact (h x).update_insert (P := fun o => o = some x) (by rw [hnone]; simp) rfl
  · rw [Function.update_of_ne hx]
    refine (h x).update_of_iff (P := fun o => o = some x) ?_
    rw [hnone]
    simp [Ne.symm hx]

/-! ## What the calls do -/

/-- The call has not changed the nodes. -/
structure Unchanged (s s' : State) : Prop where
  nodes_eq : s'.nodes = s.nodes
  root_eq : s'.root = s.root
  nextVfs_eq : s'.nextVfs = s.nextVfs
  nextAddr_le : s.nextAddr ≤ s'.nextAddr

theorem Unchanged.refl (s : State) : Unchanged s s := ⟨rfl, rfl, rfl, le_rfl⟩

/-- A new node `n` has been put into the directory `parent` under a name. -/
structure Added (s s' : State) (parent : ℕ) (parentNode : Node) (type : VType) (name : Name) :
    Prop where
  nodes_eq : ∃ node : Node, node.vfs = parentNode.vfs ∧ node.type = type ∧
    node.nlinks = (if type = .vdir then 2 else 1) ∧
    node.children = (if type = .vdir then
      Function.update (Function.update (fun _ => none) dot (some s.nextAddr)) dotdot (some parent)
      else fun _ => none) ∧
    s'.nodes = Function.update (Function.update s.nodes s.nextAddr (some node)) parent
      (some { parentNode with
        nlinks := if type = .vdir then parentNode.nlinks + 1 else parentNode.nlinks
        children := Function.update parentNode.children name (some s.nextAddr) })
  root_eq : s'.root = s.root
  nextVfs_eq : s'.nextVfs = s.nextVfs
  nextAddr_eq : s'.nextAddr = s.nextAddr + 1

/-- The new node, with its own entries. -/
def newNode (n parent vfs : ℕ) (type : VType) : Node where
  vfs := vfs
  type := type
  nlinks := if type = .vdir then 2 else 1
  children := if type = .vdir then
    Function.update (Function.update (fun _ => none) dot (some n)) dotdot (some parent)
    else fun _ => none
  linkPath := none

theorem decWord_succ (k : ℕ) : decWord (k + 1) = k := by
  simp [decWord]

theorem linkNew_of_dir (s : State) (parent n : ℕ) (parentType : VType) (name : Name)
    (allocs : Allocs) : linkNew s parent n parentType .vdir name allocs =
      if allocs.dotdot = false then some (.oom, (s.setLinks n 2).freeNode n)
      else if allocs.entry = false then some (.oom,
        ((((s.setLinks n 2).putEntry n dotdot parent).incLinks parent).freeNode n).decLinks parent)
      else if parentType ≠ .vdir then none
      else some (.success,
        (((s.setLinks n 2).putEntry n dotdot parent).incLinks parent).putEntry parent name n) := by
  simp [linkNew]

theorem linkNew_of_not_dir (s : State) (parent n : ℕ) (parentType : VType) (name : Name)
    (allocs : Allocs) (h : type ≠ .vdir) : linkNew s parent n parentType type name allocs =
      if allocs.entry = false then some (.oom, ((s.setLinks n 1).freeNode n).decLinks parent)
      else if parentType ≠ .vdir then none
      else some (.success, (s.setLinks n 1).putEntry parent name n) := by
  simp [linkNew, h]

theorem linkNew_dotdot (parent : ℕ) (parentNode : Node) (name : Name)
    (hnone : s.nodes s.nextAddr = none) (vfs : ℕ)
    (hdotdot : allocs.dotdot = false) :
    ∃ s', linkNew (s.withNode vfs .vdir) parent s.nextAddr parentNode.type .vdir name allocs =
      some (.oom, s') ∧ Unchanged s s' := by
  have hrun := linkNew_of_dir (s.withNode vfs .vdir) parent s.nextAddr parentNode.type name allocs
  rw [if_pos hdotdot] at hrun
  refine ⟨_, hrun, ?_, rfl, rfl, Nat.le_succ _⟩
  funext a
  by_cases ha : a = s.nextAddr
  · simp [State.freeNode, ha, hnone]
  · simp [State.freeNode, State.setLinks, State.modify, State.withNode, ha]

/-- Without memory for its entry the new directory goes, and the count of its parent is as before. -/
theorem linkNew_entry_dir (name : Name) (hnone : s.nodes s.nextAddr = none)
    (hparent : s.nodes parent = some parentNode) (vfs : ℕ) (hdotdot : allocs.dotdot = true)
    (hentry : allocs.entry = false) :
    ∃ s', linkNew (s.withNode vfs .vdir) parent s.nextAddr parentNode.type .vdir name allocs =
      some (.oom, s') ∧ Unchanged s s' := by
  have hne : parent ≠ s.nextAddr := by
    rintro rfl
    simp [hparent] at hnone
  have hrun := linkNew_of_dir (s.withNode vfs .vdir) parent s.nextAddr parentNode.type name allocs
  rw [if_neg (by simp [hdotdot]), if_pos hentry] at hrun
  refine ⟨_, hrun, ?_, rfl, rfl, Nat.le_succ _⟩
  funext a
  by_cases ha : a = parent
  · subst ha
    simp [State.freeNode, State.setLinks, State.modify, State.withNode, State.putEntry,
      State.incLinks, State.decLinks, hne, hparent, decWord_succ]
  · by_cases han : a = s.nextAddr
    · subst han
      simp [State.freeNode, State.decLinks, State.modify, hnone, ha]
    · simp [State.freeNode, State.setLinks, State.modify, State.withNode, State.putEntry,
        State.incLinks, State.decLinks, ha, han]

/-- Without memory for its entry a new node that is not a directory goes, and the count of its
parent goes down. -/
theorem linkNew_entry_not_dir (name : Name) (hnone : s.nodes s.nextAddr = none)
    (hparent : s.nodes parent = some parentNode) (vfs : ℕ) (hdir : type ≠ .vdir)
    (hentry : allocs.entry = false) :
    ∃ s', linkNew (s.withNode vfs type) parent s.nextAddr parentNode.type type name allocs =
      some (.oom, s') ∧ s'.nodes = Function.update s.nodes parent
        (some { parentNode with nlinks := decWord parentNode.nlinks }) := by
  have hne : parent ≠ s.nextAddr := by
    rintro rfl
    simp [hparent] at hnone
  have hrun := linkNew_of_not_dir (s.withNode vfs type) parent s.nextAddr parentNode.type name
    allocs hdir
  rw [if_pos hentry] at hrun
  refine ⟨_, hrun, ?_⟩
  funext a
  by_cases ha : a = parent
  · subst ha
    simp [State.freeNode, State.setLinks, State.modify, State.withNode, State.decLinks, hne, hparent]
  · by_cases han : a = s.nextAddr
    · subst han
      simp [State.freeNode, State.decLinks, State.modify, hnone, ha]
    · simp [State.freeNode, State.setLinks, State.modify, State.withNode, State.decLinks, ha, han]

theorem linkNew_success (type : VType) (name : Name) (hnone : s.nodes s.nextAddr = none)
    (hparent : s.nodes parent = some parentNode) (hdotdot : type = .vdir → allocs.dotdot = true)
    (hentry : allocs.entry = true) (htype : parentNode.type = .vdir) :
    ∃ s', linkNew (s.withNode parentNode.vfs type) parent s.nextAddr parentNode.type type name
        allocs = some (.success, s') ∧ Added s s' parent parentNode type name := by
  have hne : parent ≠ s.nextAddr := by
    rintro rfl
    simp [hparent] at hnone
  by_cases hdir : type = .vdir
  · subst hdir
    have hrun := linkNew_of_dir (s.withNode parentNode.vfs .vdir) parent s.nextAddr
      parentNode.type name allocs
    rw [if_neg (by simp [hdotdot rfl]), if_neg (by simp [hentry]), if_neg (by simp [htype])] at hrun
    refine ⟨_, hrun, ⟨newNode s.nextAddr parent parentNode.vfs .vdir, rfl, rfl, rfl, rfl, ?_⟩,
      rfl, rfl, rfl⟩
    funext a
    by_cases ha : a = parent
    · subst ha
      simp [State.setLinks, State.modify, State.withNode, State.putEntry, State.incLinks, hne,
        hparent]
    · by_cases han : a = s.nextAddr
      · subst han
        simp [State.setLinks, State.modify, State.withNode, State.putEntry, State.incLinks, ha,
          newNode]
      · simp [State.setLinks, State.modify, State.withNode, State.putEntry, State.incLinks, ha, han]
  · have hrun := linkNew_of_not_dir (s.withNode parentNode.vfs type) parent s.nextAddr
      parentNode.type name allocs hdir
    rw [if_neg (by simp [hentry]), if_neg (by simp [htype])] at hrun
    refine ⟨_, hrun, ⟨newNode s.nextAddr parent parentNode.vfs type, rfl, rfl, rfl, rfl, ?_⟩,
      rfl, rfl, rfl⟩
    funext a
    by_cases ha : a = parent
    · subst ha
      simp [State.setLinks, State.modify, State.withNode, State.putEntry, hne, hparent, hdir]
    · by_cases han : a = s.nextAddr
      · subst han
        simp [State.setLinks, State.modify, State.withNode, State.putEntry, ha, hdir, newNode]
      · simp [State.setLinks, State.modify, State.withNode, State.putEntry, ha, han]

theorem allocNode_cases (s : State) (vfs : ℕ) (type : VType) (allocs : Allocs) :
    allocNode s vfs type allocs = none ∨
    (allocNode s vfs type allocs = some (.error .oom) ∧ (allocs.node = false ∨ type = .vdir)) ∨
    (allocNode s vfs type allocs = some (.ok (s.nextAddr, s.withNode vfs type)) ∧
      allocs.node = true ∧ (type = .vreg → allocs.object = true)) := by
  rw [allocNode]
  by_cases hnode : allocs.node = true
  · rw [if_neg (by simp [hnode])]
    by_cases hdot : type = .vdir ∧ (!allocs.dot) = true
    · rw [if_pos hdot]
      exact .inr (.inl ⟨rfl, .inr hdot.1⟩)
    · rw [if_neg hdot]
      by_cases hobject : type = .vreg ∧ (!allocs.object) = true
      · rw [if_pos hobject]
        exact .inl rfl
      · rw [if_neg hobject]
        refine .inr (.inr ⟨rfl, hnode, ?_⟩)
        intro hreg
        by_contra hne
        exact hobject ⟨hreg, by simpa using hne⟩
  · rw [Bool.not_eq_true] at hnode
    rw [if_pos (by simp [hnode])]
    exact .inr (.inl ⟨rfl, .inl hnode⟩)

/-- **`tmpfs_create`** fails without effect, fails at the last insertion of a node that is not a
directory, or adds a node. -/
theorem tmpfsCreate_cases (hbound : ∀ x, (s.nodes x).isSome → x < s.nextAddr)
    (hparent : s.nodes parent = some parentNode)
    (h : tmpfsCreate s parent type name allocs = some (rv, s')) :
    (failsLast s parent type name allocs = false ∧ rv ≠ .success ∧ Unchanged s s') ∨
    (failsLast s parent type name allocs = true ∧ rv ≠ .success ∧
      s'.nodes = Function.update s.nodes parent
        (some { parentNode with nlinks := decWord parentNode.nlinks })) ∨
    (rv = .success ∧ parentNode.children name = none ∧ parentNode.type = .vdir ∧
      failsLast s parent type name allocs = false ∧ Added s s' parent parentNode type name) := by
  have hnone : s.nodes s.nextAddr = none := by
    by_contra hne
    exact lt_irrefl _ (hbound _ (Option.isSome_iff_ne_none.2 hne))
  rw [tmpfsCreate, hparent] at h
  simp only at h
  by_cases hchild : parentNode.children name = none
  · rw [hchild, if_neg (by simp)] at h
    rcases allocNode_cases s parentNode.vfs type allocs with halloc | ⟨halloc, hwhy⟩ |
      ⟨halloc, hnode, hobject⟩
    · simp [halloc] at h
    · simp only [halloc, Option.some.injEq, Prod.mk.injEq] at h
      obtain ⟨rfl, rfl⟩ := h
      refine .inl ⟨?_, by decide, .refl s⟩
      rcases hwhy with hnode | hdir
      · simp [failsLast, hparent, hnode]
      · simp [failsLast, hparent, hdir]
    · simp only [halloc] at h
      by_cases hdir : type = .vdir
      · subst hdir
        have hlast : failsLast s parent .vdir name allocs = false := by simp [failsLast, hparent]
        by_cases hdotdot : allocs.dotdot = true
        · by_cases hentry : allocs.entry = true
          · by_cases htype : parentNode.type = .vdir
            · obtain ⟨t, hrun, ht⟩ := linkNew_success .vdir name hnone hparent
                (fun _ => hdotdot) hentry htype
              simp only [hrun, Option.some.injEq, Prod.mk.injEq] at h
              obtain ⟨rfl, rfl⟩ := h
              exact .inr (.inr ⟨rfl, hchild, htype, hlast, ht⟩)
            · simp [linkNew_of_dir, hdotdot, hentry, htype] at h
          · rw [Bool.not_eq_true] at hentry
            obtain ⟨t, hrun, ht⟩ := linkNew_entry_dir name hnone hparent parentNode.vfs
              hdotdot hentry
            simp only [hrun, Option.some.injEq, Prod.mk.injEq] at h
            obtain ⟨rfl, rfl⟩ := h
            exact .inl ⟨hlast, by decide, ht⟩
        · rw [Bool.not_eq_true] at hdotdot
          obtain ⟨t, hrun, ht⟩ := linkNew_dotdot parent parentNode name
            hnone parentNode.vfs hdotdot
          simp only [hrun, Option.some.injEq, Prod.mk.injEq] at h
          obtain ⟨rfl, rfl⟩ := h
          exact .inl ⟨hlast, by decide, ht⟩
      · by_cases hentry : allocs.entry = true
        · by_cases htype : parentNode.type = .vdir
          · obtain ⟨t, hrun, ht⟩ := linkNew_success type name hnone hparent
              (fun hd => absurd hd hdir) hentry htype
            simp only [hrun, Option.some.injEq, Prod.mk.injEq] at h
            obtain ⟨rfl, rfl⟩ := h
            exact .inr (.inr ⟨rfl, hchild, htype, by simp [failsLast, hparent, hentry], ht⟩)
          · simp [linkNew_of_not_dir, hdir, hentry, htype] at h
        · rw [Bool.not_eq_true] at hentry
          obtain ⟨t, hrun, ht⟩ := linkNew_entry_not_dir name hnone hparent parentNode.vfs
            hdir hentry
          simp only [hrun, Option.some.injEq, Prod.mk.injEq] at h
          obtain ⟨rfl, rfl⟩ := h
          refine .inr (.inl ⟨?_, by decide, ht⟩)
          by_cases hreg : type = .vreg
          · simp [failsLast, hparent, hchild, hnode, hentry, hreg, hobject hreg]
          · simp [failsLast, hparent, hchild, hnode, hdir, hentry, hreg]
  · obtain ⟨x, hx⟩ := Option.ne_none_iff_exists'.1 hchild
    rw [if_pos (by rw [hx]; rfl)] at h
    simp only [Option.some.injEq, Prod.mk.injEq] at h
    obtain ⟨rfl, rfl⟩ := h
    exact .inl ⟨by simp [failsLast, hparent, hx], by decide, .refl s⟩

/-! ## Calls keep the counts -/

theorem State.IsParent.mono {p : ℕ} (h : s.IsParent p d) (hroot : ∀ f r, s.root f = some r →
    s'.root f = some r) (hkeep : ∀ node, s.nodes p = some node → ∃ node', s'.nodes p = some node' ∧
      node'.vfs = node.vfs ∧ ∀ k y, node.children k = some y → node'.children k = some y) :
    s'.IsParent p d := by
  obtain ⟨hne, node, name, hnode, hchild, hname⟩ := h
  obtain ⟨node', hnode', hvfs, hchildren⟩ := hkeep node hnode
  exact ⟨hne, node', name, hnode', hchildren name d hchild,
    hname.imp_right fun hr => by rw [hvfs]; exact hroot _ _ hr⟩

/-- What is left of a node when a call changes it: its file system, its type, its entries. -/
def Kept (node node' : Node) : Prop :=
  node'.vfs = node.vfs ∧ node'.type = node.type ∧
    ∀ k y, node.children k = some y → node'.children k = some y

/-- A new node is in order. -/
structure State.NodeOk (s : State) (a : ℕ) (node : Node) : Prop where
  addr : a < s.nextAddr
  vfs : node.vfs < s.nextVfs
  dotEntry : node.type = .vdir → node.children dot = some a
  dotdotEntry : node.type = .vdir → s.root node.vfs ≠ some a →
    ∃ p, s.IsParent p a ∧ node.children dotdot = some p

/-- **Frame.** The nodes keep what they have, and the new ones are in order. -/
theorem Linked.grow (h : Linked s)
    (hcounted : ∀ x, Tally (fun e => s'.entry e = some x) (s'.entries x))
    (hkept : ∀ a old, s.nodes a = some old → ∃ new, s'.nodes a = some new ∧ Kept old new)
    (hnew : ∀ a new, s'.nodes a = some new → s.nodes a = none → s'.NodeOk a new)
    (hroot : ∀ f r, s.root f = some r → s'.root f = some r)
    (hroot' : ∀ f r, s'.root f = some r →
      s.root f = some r ∨ ∃ new, s'.nodes r = some new ∧ new.vfs = f)
    (haddr : s.nextAddr ≤ s'.nextAddr) (hvfs : s.nextVfs ≤ s'.nextVfs) : Linked s' := by
  have hback : ∀ a new, s'.nodes a = some new →
      s'.NodeOk a new ∨ ∃ old, s.nodes a = some old ∧ Kept old new := by
    intro a new ha
    cases hold : s.nodes a with
    | none => exact .inl (hnew a new ha hold)
    | some old =>
      obtain ⟨new', ha', hk⟩ := hkept a old hold
      obtain rfl : new' = new := Option.some.inj (ha'.symm.trans ha)
      exact .inr ⟨old, rfl, hk⟩
  refine ⟨hcounted, ?_, ?_, ?_, ?_, ?_⟩
  · intro d new hd hdir
    rcases hback d new hd with hok | ⟨old, hold, -, ht, hc⟩
    · exact hok.dotEntry hdir
    · exact hc _ _ (h.dotEntry d old hold (ht ▸ hdir))
  · intro d new hd hdir hnotRoot
    rcases hback d new hd with hok | ⟨old, hold, hv, ht, hc⟩
    · exact hok.dotdotEntry hdir hnotRoot
    · obtain ⟨p, hp, hpar⟩ := h.dotdotEntry d old hold (ht ▸ hdir)
        (fun hr => hnotRoot (hv ▸ hroot _ _ hr))
      refine ⟨p, hp.mono hroot fun q hq => ?_, hc _ _ hpar⟩
      obtain ⟨q', hq', hv', -, hc'⟩ := hkept p q hq
      exact ⟨q', hq', hv', hc'⟩
  · intro f r hr
    rcases hroot' f r hr with hr | hr
    · obtain ⟨old, hold, hv⟩ := h.rootNode f r hr
      obtain ⟨new, hnew', hv', -⟩ := hkept r old hold
      exact ⟨new, hnew', hv'.trans hv⟩
    · exact hr
  · intro a ha
    obtain ⟨new, hnew'⟩ := Option.isSome_iff_exists.1 ha
    rcases hback a new hnew' with hok | ⟨old, hold, -⟩
    · exact hok.addr
    · exact (h.addrBound a (by rw [hold]; rfl)).trans_le haddr
  · intro a new ha
    rcases hback a new ha with hok | ⟨old, hold, hv, -⟩
    · exact hok.vfs
    · exact hv ▸ (h.vfsBound a old hold).trans_le hvfs

theorem Linked.of_unchanged (h : Linked s) (hu : Unchanged s s') : Linked s' := by
  have hentry : s'.entry = s.entry := by
    funext e
    rw [State.entry, State.entry, hu.nodes_eq]
  have hentries : s'.entries = s.entries := by
    funext x
    rw [State.entries, State.entries, hu.nodes_eq, hu.root_eq]
  refine h.grow ?_ (fun a old ha => ?_) (fun a new ha hno => ?_) (fun f r hr => hu.root_eq ▸ hr)
    (fun f r hr => .inl (hu.root_eq ▸ hr)) hu.nextAddr_le hu.nextVfs_eq.ge
  · rw [hentry, hentries]
    exact h.counted
  · exact ⟨old, by rw [hu.nodes_eq, ha], rfl, rfl, fun _ _ hy => hy⟩
  · rw [hu.nodes_eq, hno] at ha
    cases ha

theorem Linked.no_node (h : Linked s) : s.nodes s.nextAddr = none := by
  by_contra hne
  exact lt_irrefl _ (h.addrBound _ (Option.isSome_iff_ne_none.2 hne))

theorem Linked.not_root (h : Linked s) (f : ℕ) : s.root f ≠ some s.nextAddr := by
  intro hf
  obtain ⟨node, hnode, -⟩ := h.rootNode f _ hf
  simp [h.no_node] at hnode

theorem Added.entry_eq (h : Added s s' parent parentNode type name)
    (hparent : s.nodes parent = some parentNode) (hnone : s.nodes s.nextAddr = none) :
    s'.entry = Function.update
      (if type = .vdir then
        Function.update (Function.update s.entry (s.nextAddr, dot) (some s.nextAddr))
          (s.nextAddr, dotdot) (some parent)
      else s.entry) (parent, name) (some s.nextAddr) := by
  obtain ⟨node, -, -, -, hchildren, hnodes⟩ := h.nodes_eq
  have hne : parent ≠ s.nextAddr := by
    rintro rfl
    simp [hparent] at hnone
  funext ⟨a, k⟩
  rw [State.entry, hnodes]
  by_cases ha : a = parent
  · subst ha
    by_cases hk : k = name
    · simp [hk]
    · by_cases hdir : type = .vdir
      · simp [hdir, hk, hne, State.entry, hparent]
      · simp [hdir, hk, State.entry, hparent]
  · by_cases han : a = s.nextAddr
    · subst han
      by_cases hdir : type = .vdir
      · by_cases hkk : k = dotdot
        · simp [hdir, ha, hchildren, hkk]
        · by_cases hk : k = dot
          · simp [hdir, ha, hchildren, hk, dot, dotdot]
          · simp [hdir, ha, hchildren, hk, hkk, State.entry, hnone]
      · simp [hdir, ha, hchildren, State.entry, hnone]
    · by_cases hdir : type = .vdir
      · simp [hdir, ha, han, State.entry]
      · simp [hdir, ha, han, State.entry]

theorem Added.entries_eq (h : Added s s' parent parentNode type name) (hl : Linked s)
    (hparent : s.nodes parent = some parentNode) :
    s'.entries = Function.update
      (if type = .vdir then Function.update s.entries parent (s.entries parent + 1) else s.entries)
      s.nextAddr (if type = .vdir then 2 else 1) := by
  obtain ⟨node, hvfs, -, hlinks, -, hnodes⟩ := h.nodes_eq
  have hnone := hl.no_node
  have hne : parent ≠ s.nextAddr := by
    rintro rfl
    simp [hparent] at hnone
  funext a
  rw [State.entries, hnodes, h.root_eq]
  by_cases han : a = s.nextAddr
  · subst han
    simp [Ne.symm hne, hl.not_root, hlinks]
  · by_cases ha : a = parent
    · subst ha
      by_cases hdir : type = .vdir
      · simp only [hdir, if_true, Function.update_self, Function.update_of_ne han, State.entries,
          hparent]
        split
        · rfl
        · rfl
      · simp only [hdir, if_false, Function.update_self, Function.update_of_ne han, State.entries,
          hparent]
    · by_cases hdir : type = .vdir
      · simp [hdir, ha, han, State.entries]
      · simp [hdir, ha, han, State.entries]

theorem Added.counted (h : Added s s' parent parentNode type name) (hl : Linked s)
    (hparent : s.nodes parent = some parentNode) (hchild : parentNode.children name = none) (x : ℕ) :
    Tally (fun e => s'.entry e = some x) (s'.entries x) := by
  have hnone := hl.no_node
  have hne : parent ≠ s.nextAddr := by
    rintro rfl
    simp [hparent] at hnone
  have hfree : ∀ k, s.entry (s.nextAddr, k) = none := by
    intro k
    simp [State.entry, hnone]
  have hzero : s.entries s.nextAddr = 0 := by simp [State.entries, hnone]
  have hname : s.entry (parent, name) = none := by simp [State.entry, hparent, hchild]
  rw [h.entry_eq hparent hnone, h.entries_eq hl hparent]
  by_cases hdir : type = .vdir
  · simp only [hdir, if_true]
    -- the entries `.`, `..` and the named one
    have h₁ := fun y => tally_update hl.counted (hfree dot) s.nextAddr y
    have h₂ := fun y => tally_update (e := (s.nextAddr, dotdot)) h₁
      (by simp [hfree, dot, dotdot]) parent y
    have h₃ := tally_update (e := (parent, name)) h₂ (by simp [hne, hname]) s.nextAddr x
    have hcount : Function.update (Function.update (Function.update s.entries s.nextAddr
        (s.entries s.nextAddr + 1)) parent (Function.update s.entries s.nextAddr
        (s.entries s.nextAddr + 1) parent + 1)) s.nextAddr
        (Function.update (Function.update s.entries s.nextAddr (s.entries s.nextAddr + 1)) parent
        (Function.update s.entries s.nextAddr (s.entries s.nextAddr + 1) parent + 1) s.nextAddr + 1) =
        Function.update (Function.update s.entries parent (s.entries parent + 1)) s.nextAddr 2 := by
      funext a
      by_cases han : a = s.nextAddr
      · subst han
        simp [Ne.symm hne, hzero]
      · by_cases ha : a = parent
        · subst ha
          simp [hne]
        · simp [han, ha]
    rw [hcount] at h₃
    exact h₃
  · simp only [hdir, if_false]
    have h₁ := tally_update hl.counted hname s.nextAddr x
    rw [hzero] at h₁
    exact h₁

theorem Added.kept (h : Added s s' parent parentNode type name)
    (hparent : s.nodes parent = some parentNode) (hnone : s.nodes s.nextAddr = none)
    (hchild : parentNode.children name = none) (hnode : s.nodes x = some node) :
    ∃ node', s'.nodes x = some node' ∧ Kept node node' := by
  obtain ⟨new, -, -, -, -, hnodes⟩ := h.nodes_eq
  rw [hnodes]
  by_cases hx : x = parent
  · subst hx
    obtain rfl : parentNode = node := Option.some.inj (hparent.symm.trans hnode)
    refine ⟨_, Function.update_self .., rfl, rfl, ?_⟩
    intro k y hy
    have hk : k ≠ name := by
      rintro rfl
      simp [hchild] at hy
    exact (Function.update_of_ne hk ..).trans hy
  · have hxn : x ≠ s.nextAddr := by
      rintro rfl
      simp [hnone] at hnode
    exact ⟨node, by rw [Function.update_of_ne hx, Function.update_of_ne hxn, hnode], rfl, rfl,
      fun _ _ hy => hy⟩

theorem Added.linked (h : Added s s' parent parentNode type name) (hl : Linked s)
    (hparent : s.nodes parent = some parentNode) (hchild : parentNode.children name = none)
    (hname : type = .vdir → parentNode.type = .vdir) : Linked s' := by
  have hnone := hl.no_node
  have hne : parent ≠ s.nextAddr := by
    rintro rfl
    simp [hparent] at hnone
  refine hl.grow (h.counted hl hparent hchild) (fun a old ha => h.kept hparent hnone hchild ha) ?_
    (fun f r hr => by rw [h.root_eq, hr]) (fun f r hr => .inl (h.root_eq ▸ hr))
    (by rw [h.nextAddr_eq]; omega) h.nextVfs_eq.ge
  intro a new ha hno
  obtain ⟨node, hvfs, htype, -, hchildren, hnodes⟩ := h.nodes_eq
  have hap : a ≠ parent := by
    rintro rfl
    simp [hparent] at hno
  have han : a = s.nextAddr := by
    by_contra han
    rw [hnodes, Function.update_of_ne hap, Function.update_of_ne han, hno] at ha
    cases ha
  subst han
  rw [hnodes, Function.update_of_ne hap, Function.update_self] at ha
  obtain rfl : node = new := Option.some.inj ha
  refine ⟨by rw [h.nextAddr_eq]; omega, ?_, fun hdir => ?_, fun hdir _ => ?_⟩
  · rw [h.nextVfs_eq, hvfs]
    exact hl.vfsBound parent parentNode hparent
  · rw [hchildren, if_pos (htype ▸ hdir)]
    simp [dot, dotdot]
  · refine ⟨parent, ⟨hne, _, name, by rw [hnodes, Function.update_self],
      Function.update_self .., ?_⟩, ?_⟩
    · -- only a root has no entry `..` that is in the way of the name
      by_cases hdd : name = dotdot
      · refine .inr ?_
        by_contra hparentRoot
        rw [h.root_eq] at hparentRoot
        obtain ⟨p, -, hp⟩ := hl.dotdotEntry parent parentNode hparent
          (hname (htype ▸ hdir)) hparentRoot
        rw [hdd, hp] at hchild
        simp at hchild
      · exact .inl hdd
    · rw [hchildren, if_pos (htype ▸ hdir)]
      exact Function.update_self ..

/-- A change of a node that keeps its file system, type, count and entries. -/
theorem Linked.modify (h : Linked s) (n : ℕ) (f : Node → Node) (hvfs : ∀ node, (f node).vfs = node.vfs)
    (htype : ∀ node, (f node).type = node.type) (hlinks : ∀ node, (f node).nlinks = node.nlinks)
    (hchildren : ∀ node, (f node).children = node.children) : Linked (s.modify n f) := by
  have hnodes : ∀ a, (s.modify n f).nodes a = if a = n then (s.nodes a).map f else s.nodes a := by
    intro a
    by_cases ha : a = n
    · simp [State.modify, ha]
    · simp [State.modify, ha]
  have hentry : (s.modify n f).entry = s.entry := by
    funext ⟨a, k⟩
    rw [State.entry, State.entry, hnodes]
    split
    · cases s.nodes a with
      | none => rfl
      | some node => simp [hchildren]
    · rfl
  have hentries : (s.modify n f).entries = s.entries := by
    funext a
    rw [State.entries, State.entries, hnodes]
    by_cases ha : a = n
    · rw [if_pos ha]
      cases s.nodes a with
      | none => rfl
      | some node =>
        simp only [Option.map_some, hvfs, hlinks]
        rfl
    · rw [if_neg ha]
      rfl
  refine h.grow ?_ (fun a old ha => ?_) (fun a new ha hno => ?_) (fun _ _ hr => hr)
    (fun _ _ hr => .inl hr) le_rfl le_rfl
  · rw [hentry, hentries]
    exact h.counted
  · rw [hnodes, ha]
    split
    · exact ⟨f old, rfl, hvfs old, htype old, fun k y hy => by rw [hchildren, hy]⟩
    · exact ⟨old, rfl, rfl, rfl, fun _ _ hy => hy⟩
  · rw [hnodes, hno] at ha
    split at ha <;> cases ha

theorem Linked.mount (h : Linked s) : Linked { s.withNode s.nextVfs .vdir with
    root := Function.update s.root s.nextVfs (some s.nextAddr)
    nextVfs := s.nextVfs + 1 } := by
  have hnone := h.no_node
  have hfree : ∀ k, s.entry (s.nextAddr, k) = none := by
    intro k
    simp [State.entry, hnone]
  have hvfs : ∀ {x node}, s.nodes x = some node → node.vfs ≠ s.nextVfs := by
    intro x node hx
    exact Nat.ne_of_lt (h.vfsBound x node hx)
  generalize hs' : ({ s.withNode s.nextVfs .vdir with
    root := Function.update s.root s.nextVfs (some s.nextAddr)
    nextVfs := s.nextVfs + 1 } : State) = s'
  have hroot : s'.root = Function.update s.root s.nextVfs (some s.nextAddr) := by rw [← hs']
  have hnew : s'.nodes s.nextAddr = some {
      vfs := s.nextVfs, type := .vdir, nlinks := 0,
      children := Function.update (fun _ => none) dot (some s.nextAddr), linkPath := none } := by
    rw [← hs']
    simp [State.withNode]
  have hother : ∀ {x}, x ≠ s.nextAddr → s'.nodes x = s.nodes x := by
    intro x hx
    rw [← hs']
    simp [State.withNode, hx]
  have hentry : s'.entry = Function.update s.entry (s.nextAddr, dot) (some s.nextAddr) := by
    funext ⟨a, k⟩
    by_cases ha : a = s.nextAddr
    · subst ha
      by_cases hk : k = dot
      · simp [State.entry, hnew, hk]
      · simp [State.entry, hnew, hk, hnone]
    · simp [State.entry, hother ha, ha]
  have hentries : s'.entries = Function.update s.entries s.nextAddr (s.entries s.nextAddr + 1) := by
    funext a
    by_cases ha : a = s.nextAddr
    · subst ha
      simp [State.entries, hnew, hroot, hnone]
    · rw [Function.update_of_ne ha, State.entries, State.entries, hother ha, hroot]
      cases hnode : s.nodes a with
      | none => rfl
      | some node => simp only [Function.update_of_ne (hvfs hnode)]
  have haddr : s'.nextAddr = s.nextAddr + 1 := by rw [← hs']; rfl
  have hnext : s'.nextVfs = s.nextVfs + 1 := by rw [← hs']
  refine h.grow ?_ (fun a old ha => ?_) (fun a new ha hno => ?_) (fun f r hr => ?_)
    (fun f r hr => ?_) (by omega) (by omega)
  · rw [hentry, hentries]
    exact tally_update h.counted (hfree dot) s.nextAddr
  · have hne : a ≠ s.nextAddr := by
      rintro rfl
      simp [hnone] at ha
    exact ⟨old, by rw [hother hne, ha], rfl, rfl, fun _ _ hy => hy⟩
  · have han : a = s.nextAddr := by
      by_contra hne
      simp [hother hne, hno] at ha
    subst han
    rw [hnew] at ha
    rw [← Option.some.inj ha]
    refine ⟨by omega, hnext ▸ Nat.lt_succ_self _, fun _ => ?_, fun _ hnotRoot => ?_⟩
    · exact Function.update_self dot (some s.nextAddr) (fun _ => none)
    · rw [hroot] at hnotRoot
      exact absurd (Function.update_self ..) hnotRoot
  · obtain ⟨node, hnode, rfl⟩ := h.rootNode f r hr
    rw [hroot, Function.update_of_ne (hvfs hnode), hr]
  · rw [hroot] at hr
    by_cases hf : f = s.nextVfs
    · subst hf
      rw [Function.update_self, Option.some.injEq] at hr
      exact .inr ⟨_, hr ▸ hnew, rfl⟩
    · rw [Function.update_of_ne hf] at hr
      exact .inl hr

theorem Linked.link (h : Linked s) {dir : Node} (hx : s.nodes x = some node)
    (hd : s.nodes d = some dir) (hne : x ≠ d) (hchild : dir.children name = none) :
    Linked ((s.putEntry d name x).incLinks x) := by
  generalize hs' : (s.putEntry d name x).incLinks x = s'
  have hnodeX : s'.nodes x = some { node with nlinks := node.nlinks + 1 } := by
    rw [← hs']
    simp [State.incLinks, State.putEntry, State.modify, hx, hne]
  have hnodeD : s'.nodes d = some { dir with
      children := Function.update dir.children name (some x) } := by
    rw [← hs']
    simp [State.incLinks, State.putEntry, State.modify, hd, Ne.symm hne]
  have hother : ∀ {a}, a ≠ x → a ≠ d → s'.nodes a = s.nodes a := by
    intro a hax had
    rw [← hs']
    simp [State.incLinks, State.putEntry, State.modify, hax, had]
  have hroot : s'.root = s.root := by rw [← hs']; rfl
  have hname : s.entry (d, name) = none := by simp [State.entry, hd, hchild]
  have hentry : s'.entry = Function.update s.entry (d, name) (some x) := by
    funext ⟨a, k⟩
    by_cases had : a = d
    · subst had
      by_cases hk : k = name
      · simp [State.entry, hnodeD, hk]
      · simp [State.entry, hnodeD, hk, hd]
    · by_cases hax : a = x
      · subst hax
        simp [State.entry, hnodeX, had, hx]
      · simp [State.entry, hother hax had, had]
  have hentries : s'.entries = Function.update s.entries x (s.entries x + 1) := by
    funext a
    by_cases hax : a = x
    · subst hax
      rw [Function.update_self, State.entries, State.entries, hnodeX, hx, hroot]
      simp only
      split
      · rfl
      · rfl
    · rw [Function.update_of_ne hax, State.entries, State.entries, hroot]
      by_cases had : a = d
      · rw [had, hnodeD, hd]
      · rw [hother hax had]
  refine h.grow ?_ (fun a old ha => ?_) (fun a new ha hno => ?_) (fun f r hr => hroot ▸ hr)
    (fun f r hr => .inl (hroot ▸ hr)) (by rw [← hs']; rfl) (by rw [← hs']; rfl)
  · rw [hentry, hentries]
    exact tally_update h.counted hname x
  · by_cases hax : a = x
    · subst hax
      obtain rfl : node = old := Option.some.inj (hx.symm.trans ha)
      exact ⟨_, hnodeX, rfl, rfl, fun _ _ hy => hy⟩
    · by_cases had : a = d
      · subst had
        obtain rfl : dir = old := Option.some.inj (hd.symm.trans ha)
        refine ⟨_, hnodeD, rfl, rfl, ?_⟩
        intro k y hy
        have hk : k ≠ name := by
          rintro rfl
          simp [hchild] at hy
        exact (Function.update_of_ne hk ..).trans hy
      · exact ⟨old, by rw [hother hax had, ha], rfl, rfl, fun _ _ hy => hy⟩
  · have hax : a ≠ x := by
      rintro rfl
      simp [hx] at hno
    have had : a ≠ d := by
      rintro rfl
      simp [hd] at hno
    simp [hother hax had, hno] at ha

/-! ## Runs -/

/-- What a call does: fails without effect, or succeeds with the counts in order, or, if it fails
at the last insertion of a node that is not a directory, takes one from the count of the parent. -/
theorem call_cases (h : Linked s) {e : Event} (hcall : call s e = some (rv, s')) :
    (Careful s e ∧ rv ≠ .success ∧ Unchanged s s') ∨ (Careful s e ∧ rv = .success ∧ Linked s') ∨
    (¬ Careful s e ∧ rv ≠ .success ∧ ∃ parent parentNode, s.nodes parent = some parentNode ∧
      s'.nodes = Function.update s.nodes parent
        (some { parentNode with nlinks := decWord parentNode.nlinks })) := by
  have hcreate : ∀ {parent type name allocs rv s'},
      tmpfsCreate s parent type name allocs = some (rv, s') →
      (failsLast s parent type name allocs = false ∧ rv ≠ .success ∧ Unchanged s s') ∨
      (failsLast s parent type name allocs = false ∧ rv = .success ∧ Linked s') ∨
      (¬ failsLast s parent type name allocs = false ∧ rv ≠ .success ∧ ∃ parent parentNode,
        s.nodes parent = some parentNode ∧ s'.nodes = Function.update s.nodes parent
          (some { parentNode with nlinks := decWord parentNode.nlinks })) := by
    intro parent type name allocs rv s' hrun
    cases hparent : s.nodes parent with
    | none => simp [tmpfsCreate, hparent] at hrun
    | some parentNode =>
      rcases tmpfsCreate_cases h.addrBound hparent hrun with hsame | ⟨hlast, hrv, hnodes⟩ |
        ⟨hrv, hchild, htype, hlast, hadded⟩
      · exact .inl hsame
      · exact .inr (.inr ⟨by simp [hlast], hrv, parent, parentNode, hparent, hnodes⟩)
      · exact .inr (.inl ⟨hlast, hrv, hadded.linked h hparent hchild fun _ => htype⟩)
  cases e with
  | mount allocs =>
    simp only [call, tmpfsMount] at hcall
    split at hcall
    · simp at hcall
    · rcases allocNode_cases s s.nextVfs .vdir allocs with halloc | ⟨halloc, -⟩ | ⟨halloc, -, -⟩
      · simp [halloc] at hcall
      · simp only [halloc, Option.some.injEq, Prod.mk.injEq] at hcall
        obtain ⟨rfl, rfl⟩ := hcall
        exact .inl ⟨trivial, by decide, .refl s⟩
      · simp only [halloc, Option.some.injEq, Prod.mk.injEq] at hcall
        obtain ⟨rfl, rfl⟩ := hcall
        exact .inr (.inl ⟨trivial, rfl, h.mount⟩)
  | create parent type name allocs => exact hcreate hcall
  | symlink parent name path allocs =>
    simp only [call, tmpfsSymlink] at hcall
    cases hrun : tmpfsCreate s parent .vlnk name allocs with
    | none => simp [hrun] at hcall
    | some r =>
      obtain ⟨rv₁, s₁⟩ := r
      simp only [hrun] at hcall
      have herr : rv₁.isErr = true ↔ rv₁ ≠ .success := by simp [Status.isErr]
      rcases hcreate hrun with ⟨hlast, hrv, hsame⟩ | ⟨hlast, rfl, hlinked⟩ | ⟨hlast, hrv, hdec⟩
      · rw [if_pos (herr.2 hrv)] at hcall
        simp only [Option.some.injEq, Prod.mk.injEq] at hcall
        obtain ⟨rfl, rfl⟩ := hcall
        exact .inl ⟨hlast, hrv, hsame⟩
      · rw [if_neg (by simp)] at hcall
        simp only [Option.some.injEq, Prod.mk.injEq] at hcall
        obtain ⟨rfl, rfl⟩ := hcall
        exact .inr (.inl ⟨hlast, rfl, hlinked.modify _ _ (fun _ => rfl) (fun _ => rfl)
          (fun _ => rfl) (fun _ => rfl)⟩)
      · rw [if_pos (herr.2 hrv)] at hcall
        simp only [Option.some.injEq, Prod.mk.injEq] at hcall
        obtain ⟨rfl, rfl⟩ := hcall
        exact .inr (.inr ⟨hlast, hrv, hdec⟩)
  | link x d name allocs =>
    simp only [call, tmpfsLink] at hcall
    cases hx : s.nodes x with
    | none => simp [hx] at hcall
    | some node =>
      cases hd : s.nodes d with
      | none => simp [hx, hd] at hcall
      | some dir =>
        simp only [hx, hd] at hcall
        have hfail : ∀ {status : Status}, status ≠ .success → some (status, s) = some (rv, s') →
            (Careful s (.link x d name allocs) ∧ rv ≠ .success ∧ Unchanged s s') := by
          intro status hstatus heq
          simp only [Option.some.injEq, Prod.mk.injEq] at heq
          obtain ⟨rfl, rfl⟩ := heq
          exact ⟨trivial, hstatus, .refl s⟩
        split at hcall
        · exact .inl (hfail (by decide) hcall)
        · split at hcall
          · exact .inl (hfail (by decide) hcall)
          · rename_i hdir
            split at hcall
            · exact .inl (hfail (by decide) hcall)
            · rename_i hnotDir
              split at hcall
              · exact .inl (hfail (by decide) hcall)
              · rename_i hchild
                split at hcall
                · exact .inl (hfail (by decide) hcall)
                · simp only [Option.some.injEq, Prod.mk.injEq] at hcall
                  obtain ⟨rfl, rfl⟩ := hcall
                  have hne : x ≠ d := by
                    rintro rfl
                    obtain rfl : node = dir := Option.some.inj (hx.symm.trans hd)
                    exact hdir hnotDir
                  exact .inr (.inl ⟨trivial, rfl, h.link hx hd hne (by simpa using hchild)⟩)

theorem linked_of_careful (h : system.ReachableUnder Careful s) : Linked s := by
  apply h.invariant
  · rintro s ⟨hnodes, hroot⟩
    refine ⟨?_, ?_, ?_, ?_, ?_, ?_⟩
    · intro x
      have hentries : s.entries x = 0 := by simp [State.entries, hnodes]
      rw [hentries, Tally.zero_iff]
      simp [State.entry, hnodes]
    · simp [hnodes]
    · simp [hnodes]
    · simp [hroot]
    · simp [hnodes]
    · simp [hnodes]
  · intro s e s' hlinked hcareful hs
    obtain ⟨r, hcall, rfl⟩ := Option.map_eq_some_iff.1 hs
    rcases call_cases hlinked hcall with ⟨-, -, hsame⟩ | ⟨-, -, hl⟩ | ⟨hnot, -⟩
    · exact hlinked.of_unchanged hsame
    · exact hl
    · exact absurd hcareful hnot

/-- A call leaves the counts and the entries as they were. -/
def SameLinks (s s' : State) : Prop := s'.nlinks = s.nlinks ∧ s'.entry = s.entry

theorem decWord_ne (k : ℕ) : decWord k ≠ k := by
  unfold decWord
  split
  · rename_i hk
    rw [hk]
    decide
  · omega

/-- A failing call leaves the counts as they were if and only if it is not at the last insertion of
a node that is not a directory. -/
theorem sameLinks_iff_careful (h : Linked s) {e : Event} (hcall : call s e = some (rv, s'))
    (hrv : rv ≠ .success) : SameLinks s s' ↔ Careful s e := by
  rcases call_cases h hcall with ⟨hcareful, -, hsame⟩ | ⟨-, hsuccess, -⟩ |
    ⟨hnot, -, parent, parentNode, hparent, hnodes⟩
  · refine ⟨fun _ => hcareful, fun _ => ⟨?_, ?_⟩⟩
    · funext x
      rw [State.nlinks, State.nlinks, hsame.nodes_eq]
    · funext e
      rw [State.entry, State.entry, hsame.nodes_eq]
  · exact absurd hsuccess hrv
  · refine ⟨fun hsame => ?_, fun hcareful => absurd hcareful hnot⟩
    have hlinks := congrFun hsame.1 parent
    rw [State.nlinks, State.nlinks, hnodes, hparent, Function.update_self] at hlinks
    simp only [Option.map_some, Option.some.injEq] at hlinks
    exact absurd hlinks (decWord_ne _)

/-- **Link counts.**  In runs in which no call fails at the last insertion of a node that is not a
directory, the count of a node is the number of entries for it if and only if the node is not the
root of a file system; the entries `.` and `..` are right; and a failing call changes nothing if
and only if it is not such a call. -/
theorem links_counted (h : system.ReachableUnder Careful s) :
    (∀ x node, s.nodes x = some node →
      (Tally (fun e => s.entry e = some x) node.nlinks ↔ s.root node.vfs ≠ some x)) ∧
    (∀ d node, s.nodes d = some node → node.type = .vdir → s.entry (d, dot) = some d ∧
      (s.root node.vfs ≠ some d → ∃ p, s.IsParent p d ∧ s.entry (d, dotdot) = some p)) ∧
    ∀ e rv s', call s e = some (rv, s') → rv ≠ .success → (SameLinks s s' ↔ Careful s e) := by
  have hl := linked_of_careful h
  refine ⟨?_, ?_, ?_⟩
  · intro x node hx
    have hcounted := hl.counted x
    by_cases hroot : s.root node.vfs = some x
    · have hentries : s.entries x = node.nlinks + 1 := by simp [State.entries, hx, hroot]
      rw [hentries] at hcounted
      refine ⟨fun htally => ?_, fun hne => absurd hroot hne⟩
      have heq := hcounted.unique htally
      omega
    · have hentries : s.entries x = node.nlinks := by simp [State.entries, hx, hroot]
      rw [hentries] at hcounted
      exact ⟨fun _ => hroot, fun _ => hcounted⟩
  · intro d node hd hdir
    refine ⟨?_, fun hroot => ?_⟩
    · simp [State.entry, hd, hl.dotEntry d node hd hdir]
    · obtain ⟨p, hp, hentry⟩ := hl.dotdotEntry d node hd hdir hroot
      exact ⟨p, hp, by simp [State.entry, hd, hentry]⟩
  · intro e rv s' hcall hrv
    exact sameLinks_iff_careful hl hcall hrv

/-! ## Two runs -/

/-- Nothing is mounted. -/
def empty : State where
  nodes := fun _ => none
  root := fun _ => none
  nextAddr := 0
  nextVfs := 0

/-- Every allocation succeeds. -/
def allSucceed : Allocs := ⟨true, true, true, true, true, true, true⟩

/-- The named entry cannot be allocated. -/
def entryFails : Allocs := ⟨true, true, true, true, true, false, true⟩

/-- A file system with a directory `d` in its root, a file in it, and a link to the file. -/
def linkRun : List Event :=
  [.mount allSucceed, .create 0 .vdir ['d'] allSucceed, .create 1 .vreg ['f'] allSucceed,
    .link 2 0 ['g'] allSucceed]

/-- The counts after a run with a directory, a file and a link. -/
theorem links_counted_three : ∃ s, system.ReachableUnder Careful s ∧
    (s.nlinks 1 = some 2 ∧ s.nlinks 2 = some 2) ∧
    (∀ x node, s.nodes x = some node →
      (Tally (fun e => s.entry e = some x) node.nlinks ↔ s.root node.vfs ≠ some x)) := by
  obtain ⟨s, hs, hp⟩ := TransitionSystem.exists_reachableUnder_of_runUnder (C := Careful)
    (show system.init empty from ⟨rfl, rfl⟩) linkRun
    (fun s => decide (s.nlinks 1 = some 2 ∧ s.nlinks 2 = some 2)) (by decide +kernel)
  exact ⟨s, hs, of_decide_eq_true hp, (links_counted hs).1⟩

/-- The root has an entry and the count 0; and a file whose entry cannot be made takes one from the
count of the root. -/
theorem root_miscounted :
    (∃ s x node, system.Reachable s ∧ s.nodes x = some node ∧
      ¬ Tally (fun e => s.entry e = some x) node.nlinks) ∧
    ∃ s e rv s', system.Reachable s ∧ call s e = some (rv, s') ∧ rv ≠ .success ∧
      ¬ SameLinks s s' := by
  obtain ⟨s, hs, hp⟩ := TransitionSystem.exists_reachable_of_run
    (show system.init empty from ⟨rfl, rfl⟩) [.mount allSucceed]
    (fun s => decide (s.nlinks 0 = some 0 ∧ s.entry (0, dot) = some 0) &&
      (call s (.create 0 .vreg ['f'] entryFails)).any fun (r : Status × State) =>
        decide (r.1 ≠ .success ∧ r.2.nlinks 0 = some (2 ^ 64 - 1))) (by decide +kernel)
  rw [Bool.and_eq_true, decide_eq_true_eq, Option.any_eq_true] at hp
  obtain ⟨⟨hlinks, hentry⟩, ⟨rv, s'⟩, hcall, hfail⟩ := hp
  obtain ⟨hrv, hlinks'⟩ := of_decide_eq_true hfail
  constructor
  · obtain ⟨node, hnode, hzero⟩ := Option.map_eq_some_iff.1 hlinks
    refine ⟨s, 0, node, hs, hnode, ?_⟩
    intro htally
    rw [hzero] at htally
    exact absurd hentry (Tally.zero_iff.1 htally (0, dot))
  · refine ⟨s, _, rv, s', hs, hcall, hrv, ?_⟩
    intro hsame
    have heq := congrFun hsame.1 0
    rw [hlinks] at heq
    rw [show s'.nlinks 0 = some (2 ^ 64 - 1) from hlinks'] at heq
    simp at heq

end Tmpfs
