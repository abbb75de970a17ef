/-
# Objects and dictionaries

The counted objects of `core-cpp/Object.cc`, `String.cc` and `Dictionary.cc`: what an insertion and
a lookup do to the objects, and when `Dictionary::isEqual` says what it should.
-/
import YakKernel.ProgramLogic

namespace Dictionary

open Prog

/-! ## Objects -/

/-- `ClassInfo`; `other` are the classes that have the `isEqual` of `Object`. -/
inductive ClassInfo where
  | string
  | dictionary
  | pciPersonality
  | acpiPersonality
  | other (n : ℕ)
  deriving DecidableEq

/-- `Dictionary::Entry`: a `String` and an `Object`. -/
structure Entry where
  key : ℕ
  value : ℕ

/-- The fields of a `Dictionary`: the first `count` entries, and the capacity. -/
structure Table where
  entries : List Entry
  capacity : ℕ

/-- The fields of a `PciPersonality` that it compares. -/
structure PciFields where
  vendor : ℤ
  device : ℤ
  classCode : ℤ
  subclass : ℤ

/-- An object without its count. -/
inductive Body where
  | string (data : Option (List UInt8))
  | dictionary (table : Table)
  | pciPersonality (fields : PciFields)
  | acpiPersonality (pnpId : List UInt8)
  | other (n : ℕ)

def Body.getClassInfo : Body → ClassInfo
  | .string _ => .string
  | .dictionary _ => .dictionary
  | .pciPersonality _ => .pciPersonality
  | .acpiPersonality _ => .acpiPersonality
  | .other n => .other n

/-- A C string, up to its end. -/
def cString (bytes : List UInt8) : List UInt8 := bytes.takeWhile (· ≠ 0)

/-- `safe_cast<String>`, and the C string of `getCStr`. -/
def Body.text : Body → Option (List UInt8)
  | .string data => some (cString (data.getD []))
  | _ => none

/-- `safe_cast<Dictionary>`. -/
def Body.table : Body → Option Table
  | .dictionary table => some table
  | _ => none

/-- `safe_cast<PciPersonality>`. -/
def Body.pciFields : Body → Option PciFields
  | .pciPersonality fields => some fields
  | _ => none

/-- `safe_cast<AcpiPersonality>`. -/
def Body.pnpId : Body → Option (List UInt8)
  | .acpiPersonality pnpId => some pnpId
  | _ => none

/-- Two fields of which either may be `MATCH_ANY`. -/
def fieldMatches (a b : ℤ) : Bool := a = -1 ∨ b = -1 ∨ a = b

def PciFields.isEqual (this other : PciFields) : Bool :=
  fieldMatches other.vendor this.vendor ∧ fieldMatches other.device this.device ∧
    fieldMatches other.classCode this.classCode ∧ fieldMatches other.subclass this.subclass

/-- `isEqual` of the objects that are not dictionaries. -/
def Body.isEqual (this other : Body) : Bool :=
  match this with
  | .string data => other.text = some (cString (data.getD []))
  | .dictionary _ => false
  | .pciPersonality fields => (other.pciFields.map fields.isEqual).getD false
  | .acpiPersonality pnpId => other.pnpId.map cString = some (cString pnpId)
  | .other n => other.getClassInfo = .other n

structure Object where
  refcnt : ℕ
  body : Body

/-- The objects by their addresses; `next` is the address of the next one. -/
structure Heap where
  object : ℕ → Option Object
  next : ℕ

def Heap.set (h : Heap) (p : ℕ) (o : Option Object) : Heap :=
  { h with object := Function.update h.object p o }

inductive Fault where
  | badPointer
  | stackOverflow

/-- Programs on objects. -/
abbrev DictM := Prog Unit Fault Heap

def objectAt (p : ℕ) : DictM Object := do
  let h ← getState
  (h.object p).elim (fail .badPointer) pure

def retain (p : ℕ) : DictM Unit := do
  let o ← objectAt p
  change (·.set p (some { o with refcnt := o.refcnt + 1 }))

/-- `release`; the `deinit` of a dictionary is `resize(0)`. -/
def release : ℕ → ℕ → DictM Unit
  | 0, _ => fail .stackOverflow
  | depth + 1, p => do
    let o ← objectAt p
    change (·.set p (some { o with refcnt := o.refcnt - 1 }))
    if o.refcnt - 1 = 0 then
      forEach (fun e => do
        release depth e.key
        release depth e.value) ((o.body.table.map Table.entries).getD [])
      change (·.set p none)

/-- `String::fromCStr`. -/
def fromCStr (str : Option (List UInt8)) : DictM ℕ := do
  let h ← getState
  change (fun h => { h.set h.next (some ⟨1, .string (str.map cString)⟩) with next := h.next + 1 })
  return h.next

/-- `String::isEqual`. -/
def stringIsEqual (this other : ℕ) : DictM Bool := do
  let a ← objectAt this
  let b ← objectAt other
  a.body.text.elim (fail .badPointer) fun text => pure (b.body.text = some text)

/-! ## Dictionaries -/

def tableAt (d : ℕ) : DictM Table := do
  let o ← objectAt d
  o.body.table.elim (fail .badPointer) pure

def setTable (d : ℕ) (table : Table) : DictM Unit := do
  let o ← objectAt d
  change (·.set d (some { o with body := .dictionary table }))

/-- `Dictionary::resize`. -/
def resize (depth d newSize : ℕ) : DictM Unit := do
  let table ← tableAt d
  if newSize = table.capacity then pure () else do
    forEach (fun e => do
      release depth e.key
      release depth e.value) (table.entries.drop newSize)
    setTable d ⟨table.entries.take newSize, newSize⟩

/-- The loop of `insert` and `lookup`: the first entry with an equal key. -/
def findKey (key : ℕ) : List Entry → DictM (Option Entry)
  | [] => pure none
  | e :: entries => do
    let equal ← stringIsEqual key e.key
    if equal = true then pure (some e) else findKey key entries

/-- The part of `insert` after the dictionary has grown. -/
def addEntry (d key value : ℕ) : DictM Bool := do
  let table ← tableAt d
  let found ← findKey key table.entries
  if found.isSome = true then pure false else do
    retain value
    setTable d { table with entries := table.entries ++ [⟨key, value⟩] }
    return true

/-- `Dictionary::insert` of a `String`. -/
def insert (depth d key value : ℕ) : DictM Bool := do
  let table ← tableAt d
  if table.capacity ≤ table.entries.length then
    resize depth d (if table.capacity = 0 then 4 else table.capacity * 2)
  addEntry d key value

/-- `Dictionary::insert` of a C string. -/
def insertCStr (depth d : ℕ) (key : Option (List UInt8)) (value : ℕ) : DictM Bool := do
  let str ← fromCStr key
  insert depth d str value

/-- `Dictionary::lookup` of a `String`. -/
def lookup (d key : ℕ) : DictM (Option ℕ) := do
  let table ← tableAt d
  let found ← findKey key table.entries
  found.elim (pure none) fun e => do
    retain e.value
    return some e.value

/-- `Dictionary::lookup` of a C string. -/
def lookupCStr (depth d : ℕ) (key : Option (List UInt8)) : DictM (Option ℕ) := do
  let str ← fromCStr key
  let obj ← lookup d str
  release depth str
  return obj

/-- The loop of `Dictionary::isEqual`. -/
def compareEntries (depth : ℕ) (equal : ℕ → ℕ → DictM Bool) (this : ℕ) :
    List Entry → DictM Bool
  | [] => pure true
  | v :: entries => do
    let el ← lookup this v.key
    el.elim (pure false) fun el => do
      let same ← equal el v.value
      release depth el
      if same = true then compareEntries depth equal this entries else pure false

/-- `isEqual` of any object: that of a dictionary compares what the other dictionary has, and
is true of whatever is not a dictionary. -/
def isEqual : ℕ → ℕ → ℕ → DictM Bool
  | 0, _, _ => fail .stackOverflow
  | depth + 1, this, other => do
    let a ← objectAt this
    let b ← objectAt other
    a.body.table.elim (pure (a.body.isEqual b.body)) fun table =>
      b.body.table.elim (pure true) fun dict =>
        if table.entries.length ≠ dict.entries.length then pure false
        else compareEntries (depth + 1) (isEqual depth) this dict.entries

/-! ## What the objects say -/

/-- The objects without their counts. -/
def Heap.body (h : Heap) (p : ℕ) : Option Body := (h.object p).map Object.body

/-- The counts of the objects. -/
def Heap.count (h : Heap) (p : ℕ) : Option ℕ := (h.object p).map Object.refcnt

/-- The text of the string at an address. -/
def textOf (B : ℕ → Option Body) (p : ℕ) : Option (List UInt8) := (B p).bind Body.text

/-- The first entry with a key of this text. -/
def find (B : ℕ → Option Body) (t : Table) (text : List UInt8) : Option Entry :=
  t.entries.find? fun e => textOf B e.key = some text

/-- **What equality should mean**: dictionaries are the same if they have the same keys, and at each
key the same value; other objects if they say so themselves. -/
inductive Same (B : ℕ → Option Body) : ℕ → ℕ → Prop
  | plain {x y : ℕ} {a b : Body} (hx : B x = some a) (hy : B y = some b) (ha : a.table = none)
      (h : a.isEqual b = true) : Same B x y
  | dictionary {x y : ℕ} {t u : Table} (hx : B x = some (.dictionary t))
      (hy : B y = some (.dictionary u)) (hkeys : ∀ k, (find B t k).isSome = (find B u k).isSome)
      (h : ∀ k e f, find B t k = some e → find B u k = some f → Same B e.value f.value) :
      Same B x y

/-- Two objects that can be compared: both are dictionaries or neither is, and so are the values
at each key that both have; the comparison does not come back to where it was. -/
inductive Comparable (B : ℕ → Option Body) : ℕ → ℕ → Prop
  | plain {x y : ℕ} {a b : Body} (hx : B x = some a) (hy : B y = some b) (ha : a.table = none)
      (hb : b.table = none) : Comparable B x y
  | dictionary {x y : ℕ} {t u : Table} (hx : B x = some (.dictionary t))
      (hy : B y = some (.dictionary u))
      (h : ∀ k e f, find B t k = some e → find B u k = some f →
        Comparable B e.value f.value) :
      Comparable B x y

/-- **What insertions keep**: keys are strings with different texts, and values are objects. -/
structure Tidy (B : ℕ → Option Body) : Prop where
  key : ∀ d t, B d = some (.dictionary t) → ∀ e ∈ t.entries, ∃ text, textOf B e.key = some text
  value : ∀ d t, B d = some (.dictionary t) → ∀ e ∈ t.entries, ∃ b, B e.value = some b
  distinct : ∀ d t, B d = some (.dictionary t) → (t.entries.map fun e => textOf B e.key).Nodup

variable {B : ℕ → Option Body} {x y p q d key value depth : ℕ} {a b : Body} {t u : Table}
  {e f : Entry} {k text : List UInt8} {h h' : Heap} {o : Object} {l : List Entry}

/-! ### Equality is symmetric -/

theorem fieldMatches_comm (a b : ℤ) : fieldMatches a b = fieldMatches b a := by
  unfold fieldMatches
  rw [decide_eq_decide]
  constructor
  · rintro (h | h | h)
    · exact Or.inr (Or.inl h)
    · exact Or.inl h
    · exact Or.inr (Or.inr h.symm)
  · rintro (h | h | h)
    · exact Or.inr (Or.inl h)
    · exact Or.inl h
    · exact Or.inr (Or.inr h.symm)

theorem PciFields.isEqual_comm (this other : PciFields) :
    this.isEqual other = other.isEqual this := by
  unfold PciFields.isEqual
  rw [fieldMatches_comm other.vendor, fieldMatches_comm other.device,
    fieldMatches_comm other.classCode, fieldMatches_comm other.subclass]

theorem Body.isEqual_dictionary (ha : a.table = none) : a.isEqual (.dictionary t) = false := by
  cases a with
  | dictionary t => cases ha
  | _ => rfl

theorem Body.isEqual_comm (ha : a.table = none) (hb : b.table = none) :
    a.isEqual b = b.isEqual a := by
  cases a with
  | dictionary t => cases ha
  | string data =>
    cases b with
    | dictionary t => cases hb
    | string data' =>
      simp only [Body.isEqual, Body.text, Option.some.injEq, decide_eq_decide]
      exact eq_comm
    | _ => rfl
  | pciPersonality fields =>
    cases b with
    | dictionary t => cases hb
    | pciPersonality fields' => exact PciFields.isEqual_comm fields fields'
    | _ => rfl
  | acpiPersonality pnpId =>
    cases b with
    | dictionary t => cases hb
    | acpiPersonality pnpId' =>
      simp only [Body.isEqual, Body.pnpId, Option.map_some, Option.some.injEq, decide_eq_decide]
      exact eq_comm
    | _ => rfl
  | other n =>
    cases b with
    | dictionary t => cases hb
    | other n' =>
      simp only [Body.isEqual, Body.getClassInfo, ClassInfo.other.injEq, decide_eq_decide]
      exact eq_comm
    | _ => rfl

theorem Same.symm (hs : Same B x y) : Same B y x := by
  induction hs with
  | @plain x y a b hx hy ha h =>
    have hb : b.table = none := by
      cases b with
      | dictionary t => rw [Body.isEqual_dictionary ha] at h; cases h
      | _ => rfl
    exact .plain hy hx hb (by rw [Body.isEqual_comm hb ha, h])
  | dictionary hx hy hkeys _ ih =>
    exact .dictionary hy hx (fun k => (hkeys k).symm) (fun k e f he hf => ih k f e hf he)

theorem Comparable.symm (hc : Comparable B x y) : Comparable B y x := by
  induction hc with
  | plain hx hy ha hb => exact .plain hy hx hb ha
  | dictionary hx hy _ ih =>
    exact .dictionary hy hx (fun k e f he hf => ih k f e hf he)

/-! ### Keys -/

theorem find_some (h : find B t k = some e) : e ∈ t.entries ∧ textOf B e.key = some k := by
  have hfound := List.find?_some h
  exact ⟨List.mem_of_find?_eq_some h, of_decide_eq_true hfound⟩

theorem find_isSome_iff : (find B t k).isSome = true ↔
    some k ∈ t.entries.map fun e => textOf B e.key := by
  rw [find, List.find?_isSome, List.mem_map]
  simp only [decide_eq_true_eq]

theorem Tidy.find_self (hB : Tidy B) (hd : B d = some (.dictionary t)) (he : e ∈ t.entries)
    (hk : textOf B e.key = some k) : find B t k = some e := by
  obtain ⟨f, hf⟩ := Option.isSome_iff_exists.mp
    (find_isSome_iff.mpr (List.mem_map.mpr ⟨e, he, hk⟩))
  obtain ⟨hmem, htext⟩ := find_some hf
  rw [hf, List.inj_on_of_nodup_map (hB.distinct d t hd) hmem he (htext.trans hk.symm)]

/-- Two dictionaries of the same size have the same keys if one has those of the other. -/
theorem Tidy.same_keys (hB : Tidy B) (hy : B y = some (.dictionary u))
    (hlen : t.entries.length = u.entries.length)
    (h : ∀ k, (find B u k).isSome = true → (find B t k).isSome = true) (k : List UInt8) :
    (find B t k).isSome = (find B u k).isSome := by
  have hsub : (u.entries.map fun e => textOf B e.key) ⊆ t.entries.map fun e => textOf B e.key := by
    intro text htext
    obtain ⟨e, he, rfl⟩ := List.mem_map.mp htext
    obtain ⟨k, hk⟩ := hB.key y u hy e he
    simp only [hk]
    refine find_isSome_iff.mp (h k (find_isSome_iff.mpr ?_))
    exact List.mem_map.mpr ⟨e, he, hk⟩
  have hperm := (List.subperm_of_subset (hB.distinct y u hy) hsub).perm_of_length_le
    (by rw [List.length_map, List.length_map]; omega)
  rw [Bool.eq_iff_iff, find_isSome_iff, find_isSome_iff]
  exact hperm.mem_iff.symm

theorem Tidy.same_length (hB : Tidy B) (hx : B x = some (.dictionary t))
    (hy : B y = some (.dictionary u))
    (h : ∀ k, (find B t k).isSome = (find B u k).isSome) :
    t.entries.length = u.entries.length := by
  have hkeys : ∀ {z z' : ℕ} {v w : Table}, B z = some (.dictionary v) →
      B z' = some (.dictionary w) → (∀ k, (find B v k).isSome = (find B w k).isSome) →
      v.entries.length ≤ w.entries.length := by
    intro z z' v w hz _ hvw
    have hsub : (v.entries.map fun e => textOf B e.key) ⊆
        w.entries.map fun e => textOf B e.key := by
      intro text htext
      obtain ⟨e, he, rfl⟩ := List.mem_map.mp htext
      obtain ⟨k, hk⟩ := hB.key z v hz e he
      simp only [hk]
      refine find_isSome_iff.mp ?_
      rw [← hvw k]
      exact find_isSome_iff.mpr (List.mem_map.mpr ⟨e, he, hk⟩)
    have hle := (List.subperm_of_subset (hB.distinct z v hz) hsub).length_le
    rwa [List.length_map, List.length_map] at hle
  exact le_antisymm (hkeys hx hy h) (hkeys hy hx fun k => (h k).symm)

theorem same_dictionary_iff (hx : B x = some (.dictionary t)) :
    Same B x y ↔ ∃ u, B y = some (.dictionary u) ∧
      (∀ k, (find B t k).isSome = (find B u k).isSome) ∧
      ∀ k e f, find B t k = some e → find B u k = some f → Same B e.value f.value := by
  constructor
  · intro hs
    cases hs with
    | plain hx' _ ha _ =>
      obtain rfl := Option.some.inj (hx.symm.trans hx')
      cases ha
    | @dictionary _ _ t' u hx' hy hkeys h =>
      obtain rfl := Body.dictionary.inj (Option.some.inj (hx.symm.trans hx'))
      exact ⟨u, hy, hkeys, h⟩
  · rintro ⟨u, hy, hkeys, h⟩
    exact .dictionary hx hy hkeys h

/-- **What the comparison of two dictionaries establishes**, entry by entry. -/
theorem Tidy.same_iff (hB : Tidy B) (hx : B x = some (.dictionary t))
    (hy : B y = some (.dictionary u)) :
    Same B x y ↔ t.entries.length = u.entries.length ∧
      ∀ v ∈ u.entries, ∀ k, textOf B v.key = some k →
        ∃ e, find B t k = some e ∧ Same B e.value v.value := by
  rw [same_dictionary_iff hx]
  constructor
  · rintro ⟨u', hy', hkeys, h⟩
    obtain rfl := Body.dictionary.inj (Option.some.inj (hy.symm.trans hy'))
    refine ⟨hB.same_length hx hy hkeys, fun v hv k hk => ?_⟩
    have hv' := hB.find_self hy hv hk
    obtain ⟨e, he⟩ := Option.isSome_iff_exists.mp
      ((hkeys k).trans (Option.isSome_iff_exists.mpr ⟨v, hv'⟩))
    exact ⟨e, he, h k e v he hv'⟩
  · rintro ⟨hlen, h⟩
    refine ⟨u, hy, hB.same_keys hy hlen fun k hk => ?_, fun k e f he hf => ?_⟩
    · obtain ⟨v, hv⟩ := Option.isSome_iff_exists.mp hk
      obtain ⟨hmem, htext⟩ := find_some hv
      obtain ⟨e, he, -⟩ := h v hmem k htext
      exact Option.isSome_iff_exists.mpr ⟨e, he⟩
    · obtain ⟨hmem, htext⟩ := find_some hf
      obtain ⟨e', he', hs⟩ := h f hmem k htext
      rwa [Option.some.inj (he'.symm.trans he)] at hs

/-! ## What the programs do -/

/-- Every object has a reference. -/
def Live (h : Heap) : Prop := ∀ p n, h.count p = some n → 0 < n

variable {Q : Unit → Heap → Prop} {R : Fault → Prop}

theorem Heap.set_body (h : Heap) (p : ℕ) (o : Option Object) :
    (h.set p o).body = Function.update h.body p (o.map Object.body) := by
  funext q
  simp only [Heap.body, Heap.set, Function.update_apply]
  split
  · rfl
  · rfl

theorem Heap.set_count (h : Heap) (p : ℕ) (o : Option Object) :
    (h.set p o).count = Function.update h.count p (o.map Object.refcnt) := by
  funext q
  simp only [Heap.count, Heap.set, Function.update_apply]
  split
  · rfl
  · rfl

theorem Heap.count_body (ho : h.object p = some o) (n : ℕ) :
    (h.set p (some { o with refcnt := n })).body = h.body := by
  rw [Heap.set_body, Function.update_eq_self_iff]
  simp only [Heap.body, ho, Option.map_some]

theorem Heap.object_of_body (hb : h.body p = some b) :
    ∃ o, h.object p = some o ∧ o.body = b := by
  obtain ⟨o, ho, rfl⟩ := Option.map_eq_some_iff.mp hb
  exact ⟨o, ho, rfl⟩

theorem Live.retain (hl : Live h) (p : ℕ) (o : Object) :
    Live (h.set p (some { o with refcnt := o.refcnt + 1 })) := by
  intro q n hq
  rw [Heap.set_count, Function.update_apply] at hq
  split at hq
  · cases hq
    exact Nat.succ_pos _
  · exact hl q n hq

theorem objectAt_ends {Q : Object → Heap → Prop} (ho : h.object p = some o) :
    (objectAt p).Ends () h Q R ↔ Q o h := by
  simp only [objectAt, ends_bind, ends_getState, ho, Option.elim, ends_pure]

theorem retain_ends (ho : h.object p = some o) :
    (retain p).Ends () h Q R ↔ Q () (h.set p (some { o with refcnt := o.refcnt + 1 })) := by
  simp only [retain, ends_bind, objectAt_ends ho, ends_change]

theorem release_ends (ho : h.object p = some o) (hcount : 1 < o.refcnt) :
    (release (depth + 1) p).Ends () h Q R ↔
      Q () (h.set p (some { o with refcnt := o.refcnt - 1 })) := by
  rw [release, ends_bind, objectAt_ends ho, ends_bind, ends_change,
    if_neg (show o.refcnt - 1 ≠ 0 by omega), ends_pure]

theorem release_ends_last (ho : h.object p = some o) (hcount : o.refcnt = 1)
    (htable : o.body.table = none) :
    (release (depth + 1) p).Ends () h Q R ↔ Q () (h.set p none) := by
  rw [release, ends_bind, objectAt_ends ho, ends_bind, ends_change,
    if_pos (show o.refcnt - 1 = 0 by omega), htable, ends_bind]
  show Q () { h with object := Function.update (Function.update _ p _) p none } ↔ _
  rw [Function.update_idem]
  exact Iff.rfl

theorem stringIsEqual_ends {Q : Bool → Heap → Prop} (hp : textOf h.body p = some text)
    (hq : h.body q = some b) :
    (stringIsEqual p q).Ends () h Q R ↔ Q (textOf h.body q = some text) h := by
  obtain ⟨c, hc, htext⟩ := Option.bind_eq_some_iff.mp hp
  obtain ⟨o, ho, rfl⟩ := Heap.object_of_body hc
  obtain ⟨o', ho', rfl⟩ := Heap.object_of_body hq
  simp only [stringIsEqual, ends_bind, objectAt_ends ho, objectAt_ends ho', htext, Option.elim,
    ends_pure, textOf, hq, Option.bind_some]

theorem findKey_ends {Q : Option Entry → Heap → Prop} (hkey : textOf h.body key = some text) :
    ∀ l : List Entry, (∀ e ∈ l, ∃ b, h.body e.key = some b) →
      ((findKey key l).Ends () h Q R ↔
        Q (l.find? fun e => textOf h.body e.key = some text) h) := by
  intro l
  induction l with
  | nil =>
    intro _
    exact Iff.rfl
  | cons e l ih =>
    intro hl
    obtain ⟨b, hb⟩ := hl e List.mem_cons_self
    rw [findKey, ends_bind, stringIsEqual_ends hkey hb]
    by_cases heq : textOf h.body e.key = some text
    · have hfind : ((e :: l).find? fun e => textOf h.body e.key = some text) = some e :=
        List.find?_cons_of_pos (decide_eq_true heq)
      rw [if_pos (decide_eq_true heq), ends_pure, hfind]
    · have hne : ¬ decide (textOf h.body e.key = some text) = true := by simpa using heq
      have hfind : ((e :: l).find? fun e => textOf h.body e.key = some text)
          = l.find? fun e => textOf h.body e.key = some text := List.find?_cons_of_neg hne
      rw [if_neg hne, ih fun f hf => hl f (List.mem_cons_of_mem _ hf), hfind]

theorem tableAt_ends {Q : Table → Heap → Prop} (hd : h.body d = some (.dictionary t)) :
    (tableAt d).Ends () h Q R ↔ Q t h := by
  obtain ⟨o, ho, hbody⟩ := Heap.object_of_body hd
  simp only [tableAt, ends_bind, objectAt_ends ho, hbody, Body.table, Option.elim, ends_pure]

theorem Tidy.keys (hB : Tidy B) (hd : B d = some (.dictionary t)) :
    ∀ e ∈ t.entries, ∃ b, B e.key = some b := by
  intro e he
  obtain ⟨text, htext⟩ := hB.key d t hd e he
  obtain ⟨b, hb, -⟩ := Option.bind_eq_some_iff.mp htext
  exact ⟨b, hb⟩

theorem lookup_ends_none {Q : Option ℕ → Heap → Prop} (hB : Tidy h.body)
    (hd : h.body d = some (.dictionary t)) (hkey : textOf h.body key = some text)
    (hf : find h.body t text = none) : (lookup d key).Ends () h Q R ↔ Q none h := by
  rw [lookup, ends_bind, tableAt_ends hd, ends_bind, findKey_ends hkey _ (hB.keys hd)]
  rw [find] at hf
  rw [hf, Option.elim, ends_pure]

theorem lookup_ends_some {Q : Option ℕ → Heap → Prop} (hB : Tidy h.body)
    (hd : h.body d = some (.dictionary t)) (hkey : textOf h.body key = some text)
    (hf : find h.body t text = some e) (ho : h.object e.value = some o) :
    (lookup d key).Ends () h Q R ↔
      Q (some e.value) (h.set e.value (some { o with refcnt := o.refcnt + 1 })) := by
  rw [lookup, ends_bind, tableAt_ends hd, ends_bind, findKey_ends hkey _ (hB.keys hd)]
  rw [find] at hf
  simp only [hf, Option.elim, ends_bind, retain_ends ho, ends_pure]

/-! ## Comparing -/

/-- What a comparison of two values does. -/
def Compares (B : ℕ → Option Body) (x y : ℕ) (equal : DictM Bool) : Prop :=
  ∀ h : Heap, h.body = B → Live h →
    equal.Ends () h (fun b h' => h' = h ∧ (b = true ↔ Same B x y)) (fun _ => False)

theorem Heap.set_set_self (ho : h.object p = some o) (o' : Option Object) :
    (h.set p o').set p (some o) = h := by
  unfold Heap.set
  rw [Function.update_idem, ← ho, Function.update_eq_self]

theorem compareEntries_spec (hB : Tidy B) (hx : B x = some (.dictionary t))
    {equal : ℕ → ℕ → DictM Bool} :
    ∀ l : List Entry, (∀ v ∈ l, ∃ k, textOf B v.key = some k) →
      (∀ v ∈ l, ∀ k e, textOf B v.key = some k → find B t k = some e →
        Compares B e.value v.value (equal e.value v.value)) →
      ∀ h : Heap, h.body = B → Live h →
        (compareEntries (depth + 1) equal x l).Ends () h
          (fun b h' => h' = h ∧ (b = true ↔ ∀ v ∈ l, ∀ k, textOf B v.key = some k →
            ∃ e, find B t k = some e ∧ Same B e.value v.value)) (fun _ => False) := by
  intro l
  induction l with
  | nil =>
    intro _ _ h _ _
    exact ⟨rfl, fun _ v hv => absurd hv List.not_mem_nil, fun _ => rfl⟩
  | cons v l ih =>
    rintro hkeys hequal h rfl hl
    have hkeys' := fun w hw => hkeys w (List.mem_cons_of_mem v hw)
    have hequal' := fun w hw => hequal w (List.mem_cons_of_mem v hw)
    obtain ⟨k, hk⟩ := hkeys v List.mem_cons_self
    rw [compareEntries, ends_bind]
    cases hf : find h.body t k with
    | none =>
      rw [lookup_ends_none hB hx hk hf, Option.elim, ends_pure]
      refine ⟨rfl, fun hb => absurd hb Bool.false_ne_true, fun hall => ?_⟩
      obtain ⟨e, he, -⟩ := hall v List.mem_cons_self k hk
      rw [hf] at he
      cases he
    | some e =>
      obtain ⟨b, hb⟩ := hB.value x t hx e (find_some hf).1
      obtain ⟨o, ho, rfl⟩ := Heap.object_of_body hb
      have hcount := Heap.count_body ho (o.refcnt + 1)
      rw [lookup_ends_some hB hx hk hf ho, Option.elim, ends_bind]
      refine (hequal v List.mem_cons_self k e hk hf _ hcount (hl.retain _ _)).imp ?_
      rintro same h₁ ⟨rfl, hsame⟩
      have ho₁ : (h.set e.value (some { o with refcnt := o.refcnt + 1 })).object e.value
          = some { o with refcnt := o.refcnt + 1 } := Function.update_self _ _ _
      have hpos := hl e.value o.refcnt (Option.map_eq_some_iff.mpr ⟨o, ho, rfl⟩)
      rw [ends_bind, release_ends ho₁ (show 1 < o.refcnt + 1 by omega)]
      have hback : (h.set e.value (some { o with refcnt := o.refcnt + 1 })).set e.value
          (some { o with refcnt := o.refcnt + 1 - 1 }) = h := Heap.set_set_self ho _
      simp only [hback]
      cases same with
      | false =>
        rw [if_neg Bool.false_ne_true, ends_pure]
        refine ⟨rfl, fun hb => absurd hb Bool.false_ne_true, fun hall => ?_⟩
        obtain ⟨e', he', hs⟩ := hall v List.mem_cons_self k hk
        rw [hf] at he'
        cases he'
        exact hsame.mpr hs
      | true =>
        rw [if_pos rfl]
        refine (ih hkeys' hequal' h rfl hl).imp ?_
        rintro b _ ⟨rfl, hb⟩
        refine ⟨rfl, hb.trans ?_⟩
        rw [List.forall_mem_cons]
        refine (and_iff_right fun k' hk' => ?_).symm
        rw [hk] at hk'
        cases hk'
        exact ⟨e, hf, hsame.mp rfl⟩

theorem exists_depth {P : Entry → ℕ → Prop} :
    ∀ l : List Entry, (∀ v ∈ l, ∃ n, ∀ m, n ≤ m → P v m) →
      ∃ n, ∀ m, n ≤ m → ∀ v ∈ l, P v m := by
  intro l
  induction l with
  | nil =>
    intro _
    exact ⟨0, fun _ _ v hv => absurd hv List.not_mem_nil⟩
  | cons v l ih =>
    intro h
    obtain ⟨n, hn⟩ := h v List.mem_cons_self
    obtain ⟨n', hn'⟩ := ih fun w hw => h w (List.mem_cons_of_mem v hw)
    refine ⟨max n n', fun m hm => List.forall_mem_cons.mpr ⟨?_, ?_⟩⟩
    · exact hn m (le_trans (le_max_left n n') hm)
    · exact hn' m (le_trans (le_max_right n n') hm)

/-- **`isEqual` is right about objects that can be compared**: it returns, leaves every count as it
was, and says whether the objects are the same. -/
theorem isEqual_spec (hB : Tidy B) (hc : Comparable B x y) :
    ∃ n, ∀ depth, n ≤ depth → Compares B x y (isEqual depth x y) := by
  induction hc with
  | @plain x y a b hx hy ha hb =>
    refine ⟨1, fun depth hdepth => ?_⟩
    obtain ⟨m, rfl⟩ := Nat.exists_eq_add_of_le' hdepth
    rintro h rfl hl
    obtain ⟨o, ho, rfl⟩ := Heap.object_of_body hx
    obtain ⟨o', ho', rfl⟩ := Heap.object_of_body hy
    rw [isEqual, ends_bind, objectAt_ends ho, ends_bind, objectAt_ends ho', ha, Option.elim,
      ends_pure]
    refine ⟨rfl, fun heq => .plain hx hy ha heq, fun hs => ?_⟩
    cases hs with
    | plain hx' hy' _ h =>
      rw [Option.some.inj (hx.symm.trans hx'), Option.some.inj (hy.symm.trans hy')]
      exact h
    | dictionary hx' =>
      rw [Option.some.inj (hx.symm.trans hx')] at ha
      cases ha
  | @dictionary x y t u hx hy _ ih =>
    have hbound : ∀ v ∈ u.entries, ∃ n, ∀ m, n ≤ m → ∀ k e, textOf B v.key = some k →
        find B t k = some e → Compares B e.value v.value (isEqual m e.value v.value) := by
      intro v hv
      obtain ⟨k, hk⟩ := hB.key y u hy v hv
      cases hf : find B t k with
      | none =>
        refine ⟨0, fun m _ k' e hk' he => ?_⟩
        rw [hk] at hk'
        cases hk'
        rw [hf] at he
        cases he
      | some e =>
        obtain ⟨n, hn⟩ := ih k e v hf (hB.find_self hy hv hk)
        refine ⟨n, fun m hm k' e' hk' he' => ?_⟩
        rw [hk] at hk'
        cases hk'
        rw [hf] at he'
        cases he'
        exact hn m hm
    obtain ⟨n, hn⟩ := exists_depth u.entries hbound
    refine ⟨n + 1, fun depth hdepth => ?_⟩
    obtain ⟨m, rfl⟩ := Nat.exists_eq_add_of_le' (show 1 ≤ depth by omega)
    rintro h rfl hl
    obtain ⟨o, ho, hbody⟩ := Heap.object_of_body hx
    obtain ⟨o', ho', hbody'⟩ := Heap.object_of_body hy
    rw [isEqual, ends_bind, objectAt_ends ho, ends_bind, objectAt_ends ho', hbody, hbody',
      Body.table, Option.elim, Body.table, Option.elim, ends_ite]
    refine ⟨fun hne => ⟨rfl, fun hb => absurd hb Bool.false_ne_true, fun hs => ?_⟩, fun heq => ?_⟩
    · exact absurd ((hB.same_iff hx hy).mp hs).1 hne
    · refine (compareEntries_spec hB hx u.entries (hB.key y u hy) (hn m (by omega)) h rfl hl).imp ?_
      rintro b _ ⟨rfl, hb⟩
      refine ⟨rfl, hb.trans ?_⟩
      rw [hB.same_iff hx hy]
      exact (and_iff_right (not_not.mp heq)).symm

/-- **A dictionary is equal to whatever is no dictionary**, says `Dictionary::isEqual`. -/
theorem isEqual_plain (hx : h.body x = some (.dictionary t)) (hy : h.body y = some b)
    (hb : b.table = none) :
    (isEqual (depth + 1) x y).Ends () h (fun equal h' => equal = true ∧ h' = h)
        (fun _ => False) ∧ ¬ Same h.body x y := by
  obtain ⟨o, ho, hbody⟩ := Heap.object_of_body hx
  obtain ⟨o', ho', rfl⟩ := Heap.object_of_body hy
  refine ⟨?_, fun hs => ?_⟩
  · rw [isEqual, ends_bind, objectAt_ends ho, ends_bind, objectAt_ends ho', hbody, hb]
    exact ⟨rfl, rfl⟩
  · obtain ⟨u, hu, -⟩ := (same_dictionary_iff hx).mp hs
    rw [Option.some.inj (hy.symm.trans hu)] at hb
    cases hb

end Dictionary
