/-
# Dictionaries in use

Insertions, lookups and comparisons one after the other.  A lookup finds what was inserted first,
and every reference has an owner, as long as no C string is inserted that is a key already: the
`String` made of it is then lost.
-/
import Mathlib.Algebra.BigOperators.Group.Finset.Basic
import Mathlib.Data.List.TakeWhile
import Mathlib.Logic.Relation
import YakKernel.Dictionary

namespace Dictionary

open Prog Function

/-! ## Who owns the references -/

/-- The references to `p` that some entries have. -/
def refsIn (entries : List Entry) (p : ℕ) : ℕ :=
  (entries.map fun e => (if e.key = p then 1 else 0) + if e.value = p then 1 else 0).sum

def Body.refs (p : ℕ) (b : Body) : ℕ := refsIn ((b.table.map Table.entries).getD []) p

/-- The references to `p` that the dictionaries below `next` have. -/
def owned (B : ℕ → Option Body) (next p : ℕ) : ℕ :=
  ∑ q ∈ Finset.range next, ((B q).map (Body.refs p)).getD 0

/-- The objects, how many references to each the callers have, and what has been given to the
insertions into each dictionary. -/
structure World where
  heap : Heap
  held : ℕ → ℕ
  inserted : ℕ → List (List UInt8 × ℕ)

/-- Every reference has an owner, and every owner a reference. -/
def World.Accounted (w : World) : Prop :=
  ∀ p n, w.heap.count p = some n → n = w.held p + owned w.heap.body w.heap.next p

/-- The value of the first insertion with this key. -/
def World.first (w : World) (d : ℕ) (text : List UInt8) : Option ℕ :=
  ((w.inserted d).find? fun x => x.1 = text).map Prod.snd

/-! ## Calls -/

inductive Call where
  | insertCStr (d : ℕ) (key : Option (List UInt8)) (value : ℕ)
  | insert (d key value : ℕ)
  | lookupCStr (d : ℕ) (key : Option (List UInt8))
  | lookup (d key : ℕ)
  | isEqual (this other : ℕ)

inductive Result where
  | accepted (b : Bool)
  | found (value : Option ℕ)
  | equal (b : Bool)

/-- The call, with a stack of this depth. -/
def Call.run (depth : ℕ) : Call → DictM Result
  | .insertCStr d key value => Result.accepted <$> Dictionary.insertCStr depth d key value
  | .insert d key value => Result.accepted <$> Dictionary.insert depth d key value
  | .lookupCStr d key => Result.found <$> Dictionary.lookupCStr depth d key
  | .lookup d key => Result.found <$> Dictionary.lookup d key
  | .isEqual this other => Result.equal <$> Dictionary.isEqual depth this other

/-- The references of the caller after the call: an accepted insertion takes over the reference to
the `String`, a lookup gives one to the value away. -/
def Call.heldAfter (held : ℕ → ℕ) : Call → Result → ℕ → ℕ
  | .insert _ key _, .accepted true => update held key (held key - 1)
  | .lookupCStr _ _, .found (some value) => update held value (held value + 1)
  | .lookup _ _, .found (some value) => update held value (held value + 1)
  | _, _ => held

/-- The text of a C string that may be `NULL`. -/
def textOfCStr (str : Option (List UInt8)) : List UInt8 := cString (str.getD [])

/-- The insertions after the call. -/
def Call.insertedAfter (w : World) : Call → ℕ → List (List UInt8 × ℕ)
  | .insertCStr d key value => update w.inserted d (w.inserted d ++ [(textOfCStr key, value)])
  | .insert d key value =>
    update w.inserted d (w.inserted d ++ [((textOf w.heap.body key).getD [], value)])
  | _ => w.inserted

/-- The call returns, on every stack that is deep enough. -/
def Step (w : World) (c : Call) (r : Result) (w' : World) : Prop :=
  ∃ h', (∃ n, ∀ depth, n ≤ depth → c.run depth () w.heap = .ok (r, h')) ∧
    w' = ⟨h', c.heldAfter w.held r, c.insertedAfter w⟩

/-- The arguments are what their types say, and the caller has the reference that an insertion
takes over. -/
def Valid (w : World) : Call → Prop
  | .insertCStr d _ value => (∃ t, w.heap.body d = some (.dictionary t)) ∧
      ∃ b, w.heap.body value = some b
  | .insert d key value => (∃ t, w.heap.body d = some (.dictionary t)) ∧
      (∃ text, textOf w.heap.body key = some text) ∧ 0 < w.held key ∧
      ∃ b, w.heap.body value = some b
  | .lookupCStr d _ => ∃ t, w.heap.body d = some (.dictionary t)
  | .lookup d key => (∃ t, w.heap.body d = some (.dictionary t)) ∧
      ∃ text, textOf w.heap.body key = some text
  | .isEqual this other => (∃ t, w.heap.body this = some (.dictionary t)) ∧
      ∃ b, w.heap.body other = some b

/-- **When a call does what it should**: no C string is inserted a second time, and objects are
compared that can be. -/
def Meets (w : World) : Call → Prop
  | .insertCStr d key _ => ∀ x ∈ w.inserted d, x.1 ≠ textOfCStr key
  | .isEqual this other => Comparable w.heap.body this other
  | _ => True

/-- What a result should be. -/
def Answers (w : World) : Call → Result → Prop
  | .insertCStr d key _, .accepted b => b = (w.first d (textOfCStr key)).isNone
  | .insert d key _, .accepted b =>
    b = (w.first d ((textOf w.heap.body key).getD [])).isNone
  | .lookupCStr d key, .found value => value = w.first d (textOfCStr key)
  | .lookup d key, .found value => value = w.first d ((textOf w.heap.body key).getD [])
  | .isEqual this other, .equal b => (b = true ↔ Same w.heap.body this other) ∧
      ∃ w', Step w (.isEqual other this) (.equal b) w'
  | _, _ => False

/-- The start: objects that all have owners, and dictionaries with nothing in them. -/
structure Start (w : World) : Prop where
  live : Live w.heap
  fresh : ∀ p, w.heap.next ≤ p → w.heap.body p = none
  held : ∀ p, w.heap.body p = none → w.held p = 0
  accounted : w.Accounted
  empty : ∀ d t, w.heap.body d = some (.dictionary t) → t.entries = []
  inserted : ∀ d, w.inserted d = []

/-- **The invariant.** -/
structure Good (w : World) : Prop where
  live : Live w.heap
  fresh : ∀ p, w.heap.next ≤ p → w.heap.body p = none
  held : ∀ p, w.heap.body p = none → w.held p = 0
  accounted : w.Accounted
  tidy : Tidy w.heap.body
  room : ∀ d t, w.heap.body d = some (.dictionary t) → t.entries.length ≤ t.capacity
  history : ∀ d t, w.heap.body d = some (.dictionary t) → ∀ k,
    (find w.heap.body t k).map Entry.value = w.first d k

variable {B : ℕ → Option Body} {w w' : World} {c : Call} {r : Result} {h h' : Heap}
  {p d s key value next n : ℕ} {t u : Table} {b : Body} {e : Entry} {k text : List UInt8}
  {o : Object} {str : Option (List UInt8)} {held : ℕ → ℕ}

theorem Start.good (hs : Start w) : Good w := by
  refine ⟨hs.live, hs.fresh, hs.held, hs.accounted, ⟨fun d t hd e he => ?_, fun d t hd e he => ?_,
    fun d t hd => ?_⟩, fun d t hd => ?_, fun d t hd k => ?_⟩
  · rw [hs.empty d t hd] at he
    exact absurd he List.not_mem_nil
  · rw [hs.empty d t hd] at he
    exact absurd he List.not_mem_nil
  · rw [hs.empty d t hd]
    exact List.nodup_nil
  · rw [hs.empty d t hd]
    exact Nat.zero_le _
  · rw [find, hs.empty d t hd, World.first, hs.inserted]
    rfl

/-! ## Counting -/

theorem refsIn_append (l : List Entry) (e : Entry) : refsIn (l ++ [e]) p =
    refsIn l p + ((if e.key = p then 1 else 0) + if e.value = p then 1 else 0) := by
  rw [refsIn, List.map_append, List.sum_append, List.map_singleton, List.sum_singleton, refsIn]

theorem owned_update (hd : d < next) (b : Option Body) :
    owned (update B d b) next p + ((B d).map (Body.refs p)).getD 0
      = owned B next p + (b.map (Body.refs p)).getD 0 := by
  have hmem := Finset.mem_range.mpr hd
  have hnew := Finset.add_sum_erase _ (fun q => ((update B d b q).map (Body.refs p)).getD 0) hmem
  have hold := Finset.add_sum_erase _ (fun q => ((B q).map (Body.refs p)).getD 0) hmem
  have hrest : ∑ q ∈ (Finset.range next).erase d, ((update B d b q).map (Body.refs p)).getD 0
      = ∑ q ∈ (Finset.range next).erase d, ((B q).map (Body.refs p)).getD 0 := by
    refine Finset.sum_congr rfl fun q hq => ?_
    rw [update_of_ne (Finset.ne_of_mem_erase hq)]
  simp only [update_self] at hnew
  unfold owned
  omega

theorem owned_append (hd : d < next) (ht : B d = some (.dictionary t)) {capacity : ℕ} :
    owned (update B d (some (.dictionary ⟨t.entries ++ [e], capacity⟩))) next p =
      owned B next p + ((if e.key = p then 1 else 0) + if e.value = p then 1 else 0) := by
  have hsum := owned_update (p := p) (B := B) hd
    (some (.dictionary ⟨t.entries ++ [e], capacity⟩))
  have hnew : ((some (Body.dictionary ⟨t.entries ++ [e], capacity⟩)).map (Body.refs p)).getD 0
      = refsIn t.entries p + ((if e.key = p then 1 else 0) + if e.value = p then 1 else 0) :=
    refsIn_append t.entries e
  have hold : ((B d).map (Body.refs p)).getD 0 = refsIn t.entries p := by
    rw [ht]
    rfl
  omega

theorem owned_capacity (hd : d < next) (ht : B d = some (.dictionary t)) {capacity : ℕ} :
    owned (update B d (some (.dictionary ⟨t.entries, capacity⟩))) next p = owned B next p := by
  have hsum := owned_update (p := p) (B := B) hd (some (.dictionary ⟨t.entries, capacity⟩))
  have hnew : ((some (Body.dictionary ⟨t.entries, capacity⟩)).map (Body.refs p)).getD 0
      = refsIn t.entries p := rfl
  have hold : ((B d).map (Body.refs p)).getD 0 = refsIn t.entries p := by
    rw [ht]
    rfl
  omega

theorem owned_new (hb : b.table = none) :
    owned (update B next (some b)) (next + 1) p = owned B next p := by
  have hzero : b.refs p = 0 := by
    rw [Body.refs, hb]
    rfl
  rw [owned, Finset.sum_range_succ, update_self, Option.map_some, Option.getD_some, hzero,
    Nat.add_zero, owned]
  refine Finset.sum_congr rfl fun q hq => ?_
  rw [update_of_ne (Finset.mem_range.mp hq).ne]

theorem owned_succ (hnone : B next = none) : owned B (next + 1) p = owned B next p := by
  rw [owned, Finset.sum_range_succ, hnone]
  rfl

/-! ## Texts -/

theorem find_congr {C : ℕ → Option Body}
    (h : ∀ e ∈ t.entries, textOf C e.key = textOf B e.key) : find C t k = find B t k := by
  unfold find
  refine List.find?_congr fun e he => ?_
  rw [h e he]

theorem textOf_dictionary (ht : B d = some (.dictionary t)) (u : Table) :
    textOf (update B d (some (.dictionary u))) = textOf B := by
  funext p
  by_cases hp : p = d
  · subst hp
    rw [textOf, update_self, textOf, ht]
    rfl
  · rw [textOf, update_of_ne hp, textOf]

theorem textOf_other (hp : p ≠ s) (b : Option Body) :
    textOf (update B s b) p = textOf B p := by
  rw [textOf, update_of_ne hp, textOf]

theorem table_of_update {d' : ℕ} {t' : Table}
    (h : update B d (some (.dictionary u)) d' = some (.dictionary t')) :
    d' = d ∧ t' = u ∨ d' ≠ d ∧ B d' = some (.dictionary t') := by
  by_cases hd : d' = d
  · subst hd
    rw [update_self] at h
    exact Or.inl ⟨rfl, (Body.dictionary.inj (Option.some.inj h)).symm⟩
  · rw [update_of_ne hd] at h
    exact Or.inr ⟨hd, h⟩

theorem Tidy.withTable (hB : Tidy B) (hd : B d = some (.dictionary t))
    (hkeys : ∀ e ∈ u.entries, ∃ text, textOf B e.key = some text)
    (hvalues : ∀ e ∈ u.entries, ∃ b, B e.value = some b)
    (hdistinct : (u.entries.map fun e => textOf B e.key).Nodup) :
    Tidy (update B d (some (.dictionary u))) := by
  have hobject : ∀ p b, B p = some b → ∃ b', update B d (some (.dictionary u)) p = some b' := by
    intro p b hp
    rw [update_apply]
    split
    · exact ⟨_, rfl⟩
    · exact ⟨b, hp⟩
  refine ⟨fun d' t' hd' e he => ?_, fun d' t' hd' e he => ?_, fun d' t' hd' => ?_⟩
  · rw [textOf_dictionary hd]
    rcases table_of_update hd' with ⟨rfl, rfl⟩ | ⟨-, hold⟩
    · exact hkeys e he
    · exact hB.key d' t' hold e he
  · rcases table_of_update hd' with ⟨rfl, rfl⟩ | ⟨-, hold⟩
    · obtain ⟨b, hb⟩ := hvalues e he
      exact hobject e.value b hb
    · obtain ⟨b, hb⟩ := hB.value d' t' hold e he
      exact hobject e.value b hb
  · rw [textOf_dictionary hd]
    rcases table_of_update hd' with ⟨rfl, rfl⟩ | ⟨-, hold⟩
    · exact hdistinct
    · exact hB.distinct d' t' hold

theorem Tidy.key_ne (hB : Tidy B) (hd : B d = some (.dictionary t)) (he : e ∈ t.entries)
    (hs : B s = none) : e.key ≠ s := by
  rintro rfl
  obtain ⟨b, hb⟩ := hB.keys hd e he
  rw [hs] at hb
  cases hb

theorem Tidy.value_ne (hB : Tidy B) (hd : B d = some (.dictionary t)) (he : e ∈ t.entries)
    (hs : B s = none) : e.value ≠ s := by
  rintro rfl
  obtain ⟨b, hb⟩ := hB.value d t hd e he
  rw [hs] at hb
  cases hb

/-! ## What the calls do to the objects -/

theorem eq_ok_of_ends {α : Type} {x : DictM α} {a : α}
    (hx : x.Ends () h (fun b s => b = a ∧ s = h') (fun _ => False)) : x () h = .ok (a, h') := by
  obtain ⟨b, s, hrun, rfl, rfl⟩ := hx.exists_ok
  exact hrun

/-- The objects with a new string. -/
def Heap.withString (h : Heap) (str : Option (List UInt8)) : Heap :=
  { h.set h.next (some ⟨1, .string (str.map cString)⟩) with next := h.next + 1 }

theorem withString_body (h : Heap) (str : Option (List UInt8)) :
    (h.withString str).body = update h.body h.next (some (.string (str.map cString))) :=
  h.set_body h.next _

theorem withString_count (h : Heap) (str : Option (List UInt8)) :
    (h.withString str).count = update h.count h.next (some 1) :=
  h.set_count h.next _

theorem withString_text (h : Heap) (str : Option (List UInt8)) :
    textOf (h.withString str).body h.next = some (textOfCStr str) := by
  rw [withString_body, textOf, update_self, Option.bind_some, Body.text, textOfCStr]
  cases str with
  | none => rfl
  | some bytes =>
    rw [Option.map_some, Option.getD_some, Option.getD_some, cString, cString,
      List.takeWhile_idem]

theorem fromCStr_ends {Q : ℕ → Heap → Prop} {R : Fault → Prop} :
    (fromCStr str).Ends () h Q R ↔ Q h.next (h.withString str) := Iff.rfl

theorem resize_ends {Q : Unit → Heap → Prop} {R : Fault → Prop} {depth newSize : ℕ}
    (ho : h.object d = some o) (hbody : o.body = .dictionary t)
    (hle : t.entries.length ≤ newSize) (hne : newSize ≠ t.capacity) :
    (resize depth d newSize).Ends () h Q R ↔
      Q () (h.set d (some { o with body := .dictionary ⟨t.entries, newSize⟩ })) := by
  have hd : h.body d = some (.dictionary t) := by
    rw [Heap.body, ho, Option.map_some, hbody]
  rw [resize, ends_bind, tableAt_ends hd, if_neg hne, List.drop_eq_nil_of_le hle,
    List.take_of_length_le hle, forEach, ends_bind, ends_pure, setTable, ends_bind,
    objectAt_ends ho, ends_change]

theorem addEntry_eq (hB : Tidy h.body) (hd : h.body d = some (.dictionary t))
    (hkey : textOf h.body key = some text) (hv : h.body value = some b) :
    ∃ h', addEntry d key value () h = .ok ((find h.body t text).isNone, h') ∧
      h'.next = h.next ∧ ((find h.body t text).isSome = true → h' = h) ∧
      (find h.body t text = none →
        h'.body = update h.body d (some (.dictionary ⟨t.entries ++ [⟨key, value⟩], t.capacity⟩)) ∧
        h'.count = update h.count value ((h.count value).map (· + 1))) := by
  cases hf : find h.body t text with
  | some e =>
    refine ⟨h, eq_ok_of_ends ?_, rfl, fun _ => rfl, fun hnone => ?_⟩
    · rw [addEntry, ends_bind, tableAt_ends hd, ends_bind, findKey_ends hkey _ (hB.keys hd)]
      rw [find] at hf
      rw [hf, Option.isSome_some, if_pos rfl, ends_pure]
      exact ⟨rfl, rfl⟩
    · cases hnone
  | none =>
    obtain ⟨o, ho, rfl⟩ := Heap.object_of_body hv
    have hcount := Heap.count_body ho (o.refcnt + 1)
    have hd' := hd
    rw [← hcount] at hd'
    obtain ⟨od, hod, hbody⟩ := Heap.object_of_body hd'
    refine ⟨(h.set value (some { o with refcnt := o.refcnt + 1 })).set d
      (some { od with body := .dictionary ⟨t.entries ++ [⟨key, value⟩], t.capacity⟩ }),
      eq_ok_of_ends ?_, rfl, fun hsome => absurd hsome Bool.false_ne_true, fun _ => ⟨?_, ?_⟩⟩
    · rw [addEntry, ends_bind, tableAt_ends hd, ends_bind, findKey_ends hkey _ (hB.keys hd)]
      rw [find] at hf
      rw [hf, Option.isSome_none, if_neg Bool.false_ne_true, ends_bind, retain_ends ho, ends_bind,
        setTable, ends_bind, objectAt_ends hod, ends_change, ends_pure]
      exact ⟨rfl, rfl⟩
    · rw [Heap.set_body, hcount]
      rfl
    · have hcounts : (h.set value (some { o with refcnt := o.refcnt + 1 })).count d
          = some od.refcnt := by
        rw [Heap.count, hod, Option.map_some]
      rw [Heap.set_count, Option.map_some, ← hcounts, update_eq_self, Heap.set_count]
      have hvalue : h.count value = some o.refcnt := by
        rw [Heap.count, ho, Option.map_some]
      rw [hvalue]
      rfl

/-- **What `insert` does.** -/
theorem insert_eq (hB : Tidy h.body) (hd : h.body d = some (.dictionary t))
    (hroom : t.entries.length ≤ t.capacity) (hkey : textOf h.body key = some text)
    (hv : h.body value = some b) :
    ∃ h' capacity, (∀ depth, Dictionary.insert depth d key value () h
        = .ok ((find h.body t text).isNone, h')) ∧
      h'.next = h.next ∧ t.entries.length + 1 ≤ capacity ∧
      ((find h.body t text).isSome = true →
        h'.body = update h.body d (some (.dictionary ⟨t.entries, capacity⟩)) ∧
        h'.count = h.count) ∧
      (find h.body t text = none →
        h'.body = update h.body d (some (.dictionary ⟨t.entries ++ [⟨key, value⟩], capacity⟩)) ∧
        h'.count = update h.count value ((h.count value).map (· + 1))) := by
  by_cases hfull : t.capacity ≤ t.entries.length
  · obtain ⟨o, ho, hbody⟩ := Heap.object_of_body hd
    -- the dictionary as it has grown
    let capacity := if t.capacity = 0 then 4 else t.capacity * 2
    have hcapacity : t.entries.length + 1 ≤ capacity ∧ capacity ≠ t.capacity := by
      show _ ≤ (if t.capacity = 0 then 4 else t.capacity * 2) ∧
        (if t.capacity = 0 then 4 else t.capacity * 2) ≠ t.capacity
      split
      · omega
      · omega
    let h₁ := h.set d (some { o with body := .dictionary ⟨t.entries, capacity⟩ })
    have hbody₁ : h₁.body = update h.body d (some (.dictionary ⟨t.entries, capacity⟩)) :=
      h.set_body d _
    have hcount₁ : h₁.count = h.count := by
      have hcd : h.count d = some o.refcnt := by
        rw [Heap.count, ho, Option.map_some]
      rw [Heap.set_count, Option.map_some, ← hcd, update_eq_self]
    have htext : textOf h₁.body = textOf h.body := by
      rw [hbody₁, textOf_dictionary hd]
    have hd₁ : h₁.body d = some (.dictionary ⟨t.entries, capacity⟩) := by
      rw [hbody₁, update_self]
    have hfind : find h₁.body ⟨t.entries, capacity⟩ text = find h.body t text :=
      find_congr (t := t) fun e _ => by rw [htext]
    have hB₁ : Tidy h₁.body := by
      rw [hbody₁]
      exact hB.withTable hd (hB.key d t hd) (hB.value d t hd) (hB.distinct d t hd)
    have hv₁ : ∃ b, h₁.body value = some b := by
      rw [hbody₁, update_apply]
      split
      · exact ⟨_, rfl⟩
      · exact ⟨b, hv⟩
    obtain ⟨b₁, hv₁⟩ := hv₁
    obtain ⟨h', hrun, hnext, hsome, hnone⟩ := addEntry_eq hB₁ hd₁ (by rw [htext, hkey]) hv₁
    rw [hfind] at hrun hsome hnone
    refine ⟨h', capacity, fun depth => ?_, hnext, hcapacity.1, fun hs => ?_, fun hn => ?_⟩
    · refine eq_ok_of_ends ?_
      rw [Dictionary.insert, ends_bind, tableAt_ends hd, if_pos hfull, ends_bind,
        resize_ends ho hbody (by omega) hcapacity.2, ends_of_ok hrun]
      exact ⟨rfl, rfl⟩
    · rw [hsome hs, hbody₁, hcount₁]
      exact ⟨rfl, rfl⟩
    · obtain ⟨h1, h2⟩ := hnone hn
      rw [h1, h2, hbody₁, hcount₁, update_idem]
      exact ⟨rfl, rfl⟩
  · obtain ⟨h', hrun, hnext, hsome, hnone⟩ := addEntry_eq hB hd hkey hv
    refine ⟨h', t.capacity, fun depth => eq_ok_of_ends ?_, hnext, by omega, fun hs => ?_, hnone⟩
    · rw [Dictionary.insert, ends_bind, tableAt_ends hd, if_neg hfull]
      exact (ends_of_ok hrun).mpr ⟨rfl, rfl⟩
    · rw [hsome hs]
      refine ⟨?_, rfl⟩
      rw [← hd, update_eq_self]

/-! ## What the calls keep -/

theorem Good.withTable (hg : Good w) (hd : w.heap.body d = some (.dictionary t))
    {inserted : ℕ → List (List UInt8 × ℕ)} (hnext : h'.next = w.heap.next)
    (hbody : h'.body = update w.heap.body d (some (.dictionary u))) (hlive : Live h')
    (hheld : ∀ p, w.heap.body p = none → held p = 0)
    (haccounted : World.Accounted ⟨h', held, inserted⟩)
    (hkeys : ∀ e ∈ u.entries, ∃ text, textOf w.heap.body e.key = some text)
    (hvalues : ∀ e ∈ u.entries, ∃ b, w.heap.body e.value = some b)
    (hdistinct : (u.entries.map fun e => textOf w.heap.body e.key).Nodup)
    (hroom : u.entries.length ≤ u.capacity)
    (hhistory : ∀ k, (find w.heap.body u k).map Entry.value =
      World.first ⟨h', held, inserted⟩ d k)
    (hother : ∀ d', d' ≠ d → inserted d' = w.inserted d') : Good ⟨h', held, inserted⟩ := by
  have hnone : ∀ p, h'.body p = none → p ≠ d ∧ w.heap.body p = none := by
    intro p hp
    rw [hbody, update_apply] at hp
    split at hp
    · cases hp
    · exact ⟨‹_›, hp⟩
  have hfind : ∀ t', find h'.body t' = find w.heap.body t' := by
    intro t'
    funext k
    exact find_congr fun e _ => by rw [hbody, textOf_dictionary hd]
  refine ⟨hlive, fun p hp => ?_, fun p hp => hheld p (hnone p hp).2, haccounted, ?_,
    fun d' t' hd' => ?_, fun d' t' hd' k => ?_⟩
  · have hp' : w.heap.next ≤ p := hnext ▸ hp
    have hold := hg.fresh p hp'
    have hne : p ≠ d := by
      rintro rfl
      rw [hd] at hold
      cases hold
    show h'.body p = none
    rw [hbody, update_of_ne hne]
    exact hold
  · show Tidy h'.body
    rw [hbody]
    exact hg.tidy.withTable hd hkeys hvalues hdistinct
  · have hd'' : h'.body d' = some (.dictionary t') := hd'
    rw [hbody] at hd''
    rcases table_of_update hd'' with ⟨rfl, rfl⟩ | ⟨-, hold⟩
    · exact hroom
    · exact hg.room d' t' hold
  · have hd'' : h'.body d' = some (.dictionary t') := hd'
    show (find h'.body t' k).map Entry.value = _
    rw [hbody] at hd''
    rw [hfind]
    rcases table_of_update hd'' with ⟨rfl, rfl⟩ | ⟨hne, hold⟩
    · exact hhistory k
    · rw [hg.history d' t' hold k, World.first, World.first]
      simp only [hother d' hne]

theorem first_append {inserted : ℕ → List (List UInt8 × ℕ)}
    (hi : inserted d = w.inserted d ++ [(text, value)]) (k : List UInt8) :
    World.first ⟨h', held, inserted⟩ d k =
      (w.first d k).or (if text = k then some value else none) := by
  show Option.map Prod.snd ((inserted d).find? _) = _
  rw [World.first, hi, List.find?_append, Option.map_or]
  congr 1
  by_cases hk : text = k
  · rw [List.find?_cons_of_pos (by simpa using hk), if_pos hk, Option.map_some]
  · rw [List.find?_cons_of_neg (by simpa using hk), if_neg hk]
    rfl

theorem find_append {capacity : ℕ} (hk : textOf B key = some text) (k : List UInt8) :
    (find B ⟨t.entries ++ [⟨key, value⟩], capacity⟩ k).map Entry.value =
      ((find B t k).map Entry.value).or (if text = k then some value else none) := by
  rw [find, find, List.find?_append, Option.map_or]
  congr 1
  by_cases h : text = k
  · rw [List.find?_cons_of_pos (by simpa using hk.trans (congrArg some h)), if_pos h,
      Option.map_some]
  · rw [List.find?_cons_of_neg (by simpa [hk] using h), if_neg h]
    rfl

theorem Good.withCounts (hg : Good w) (hbody : h'.body = w.heap.body)
    (hnext : w.heap.next ≤ h'.next) (hlive : Live h')
    (hheld : ∀ p, w.heap.body p = none → held p = 0)
    (haccounted : World.Accounted ⟨h', held, w.inserted⟩) : Good ⟨h', held, w.inserted⟩ := by
  refine ⟨hlive, fun p hp => ?_, fun p hp => hheld p (hbody ▸ hp), haccounted, ?_,
    fun d t hd => hg.room d t (hbody ▸ hd), fun d t hd k => ?_⟩
  · show h'.body p = none
    rw [hbody]
    exact hg.fresh p (hnext.trans hp)
  · show Tidy h'.body
    rw [hbody]
    exact hg.tidy
  · show (find h'.body t k).map Entry.value = _
    rw [hbody]
    exact hg.history d t (hbody ▸ hd) k

theorem Good.lt_next (hg : Good w) (hb : w.heap.body p = some b) : p < w.heap.next := by
  by_contra hle
  rw [hg.fresh p (Nat.le_of_not_lt hle)] at hb
  cases hb

theorem Heap.count_of_body (hb : h.body p = some b) : ∃ n, h.count p = some n := by
  obtain ⟨o, ho, -⟩ := Heap.object_of_body hb
  exact ⟨o.refcnt, by rw [Heap.count, ho, Option.map_some]⟩

/-- **An insertion keeps the invariant**, if an accepted one takes over the reference to the key. -/
theorem Good.insert (hg : Good w) (hd : w.heap.body d = some (.dictionary t))
    (hkey : textOf w.heap.body key = some text) (hheld : 0 < w.held key)
    (hv : w.heap.body value = some b) :
    ∃ h', (∀ depth, Dictionary.insert depth d key value () w.heap
        = .ok ((w.first d text).isNone, h')) ∧
      Good ⟨h', if w.first d text = none then update w.held key (w.held key - 1) else w.held,
        update w.inserted d (w.inserted d ++ [(text, value)])⟩ := by
  obtain ⟨h', capacity, hrun, hnext, hcapacity, hsome, hnone⟩ :=
    insert_eq hg.tidy hd (hg.room d t hd) hkey hv
  have hhistory := hg.history d t hd text
  have hlt := hg.lt_next hd
  cases hf : find w.heap.body t text with
  | some e =>
    obtain ⟨hbody, hcount⟩ := hsome (by rw [hf]; rfl)
    rw [hf, Option.map_some] at hhistory
    refine ⟨h', fun depth => by rw [hrun, hf, ← hhistory]; rfl, ?_⟩
    rw [if_neg (by rw [← hhistory]; exact Option.some_ne_none _)]
    refine hg.withTable hd hnext hbody (fun p n hp => ?_) hg.held (fun p n hp => ?_)
      (hg.tidy.key d t hd) (hg.tidy.value d t hd) (hg.tidy.distinct d t hd) ?_ (fun k => ?_)
      (fun d' hne => update_of_ne hne _ _)
    · rw [hcount] at hp
      exact hg.live p n hp
    · have hp' : h'.count p = some n := hp
      rw [hcount] at hp'
      rw [hg.accounted p n hp']
      show _ = w.held p + owned h'.body h'.next p
      rw [hbody, hnext, owned_capacity hlt hd]
    · exact (Nat.le_succ _).trans hcapacity
    · rw [first_append (update_self _ _ _)]
      show (find w.heap.body t k).map Entry.value = _
      rw [hg.history d t hd k]
      split
      · subst k
        rw [← hhistory]
        rfl
      · rw [Option.or_none]
  | none =>
    obtain ⟨hbody, hcount⟩ := hnone hf
    rw [hf, Option.map_none] at hhistory
    refine ⟨h', fun depth => by rw [hrun, hf, ← hhistory]; rfl, ?_⟩
    rw [if_pos hhistory.symm]
    obtain ⟨n₀, hn₀⟩ := Heap.count_of_body hv
    obtain ⟨b', hb', -⟩ := Option.bind_eq_some_iff.mp hkey
    rw [hn₀, Option.map_some] at hcount
    refine hg.withTable hd hnext hbody (fun p n hp => ?_) (fun p hp => ?_) (fun p n hp => ?_)
      (fun e he => ?_) (fun e he => ?_) ?_ ?_ (fun k => ?_) (fun d' hne => update_of_ne hne _ _)
    · rw [hcount, update_apply] at hp
      split at hp
      · cases hp
        exact Nat.succ_pos _
      · exact hg.live p n hp
    · have hne : p ≠ key := by
        rintro rfl
        rw [hb'] at hp
        cases hp
      rw [update_of_ne hne]
      exact hg.held p hp
    · have hp' : h'.count p = some n := hp
      rw [hcount, update_apply] at hp'
      show n = update w.held key (w.held key - 1) p + owned h'.body h'.next p
      rw [hbody, hnext, owned_append hlt hd, update_apply]
      show n = _ + (_ + ((if key = p then 1 else 0) + if value = p then 1 else 0))
      -- the new entry takes a reference to the key over, and has a new one to the value
      have hkeys : (if p = key then w.held key - 1 else w.held p) + (if key = p then 1 else 0)
          = w.held p := by
        by_cases hpk : p = key
        · subst hpk
          rw [if_pos rfl, if_pos rfl]
          omega
        · rw [if_neg hpk, if_neg (Ne.symm hpk), Nat.add_zero]
      have hcounts : n = w.held p + owned w.heap.body w.heap.next p +
          if value = p then 1 else 0 := by
        by_cases hpv : p = value
        · subst hpv
          rw [if_pos rfl] at hp' ⊢
          rw [← hg.accounted p n₀ hn₀]
          exact (Option.some.inj hp').symm
        · rw [if_neg hpv] at hp'
          rw [if_neg (Ne.symm hpv), Nat.add_zero]
          exact hg.accounted p n hp'
      omega
    · rcases List.mem_append.mp he with hold | hnew
      · exact hg.tidy.key d t hd e hold
      · obtain rfl := List.mem_singleton.mp hnew
        exact ⟨text, hkey⟩
    · rcases List.mem_append.mp he with hold | hnew
      · exact hg.tidy.value d t hd e hold
      · obtain rfl := List.mem_singleton.mp hnew
        exact ⟨b, hv⟩
    · rw [List.map_append, List.map_singleton, hkey, ← List.concat_eq_append,
        List.nodup_concat]
      refine ⟨fun hmem => ?_, hg.tidy.distinct d t hd⟩
      have hfound := find_isSome_iff.mpr hmem
      rw [hf] at hfound
      cases hfound
    · rw [List.length_append]
      exact hcapacity
    · rw [first_append (update_self _ _ _), find_append hkey, hg.history d t hd k]

/-- **A lookup keeps the invariant**, if the caller owns the reference that it gets. -/
theorem Good.lookup (hg : Good w) (hd : w.heap.body d = some (.dictionary t))
    (hkey : textOf w.heap.body key = some text) :
    ∃ h', Dictionary.lookup d key () w.heap = .ok (w.first d text, h') ∧
      h'.body = w.heap.body ∧ h'.next = w.heap.next ∧
      Good ⟨h', (w.first d text).elim w.held fun v => update w.held v (w.held v + 1),
        w.inserted⟩ := by
  have hhistory := hg.history d t hd text
  cases hf : find w.heap.body t text with
  | none =>
    rw [hf, Option.map_none] at hhistory
    rw [← hhistory]
    refine ⟨w.heap, eq_ok_of_ends ?_, rfl, rfl, hg⟩
    exact (lookup_ends_none hg.tidy hd hkey hf).mpr ⟨rfl, rfl⟩
  | some e =>
    rw [hf, Option.map_some] at hhistory
    rw [← hhistory]
    obtain ⟨b, hb⟩ := hg.tidy.value d t hd e (find_some hf).1
    obtain ⟨o, ho, -⟩ := Heap.object_of_body hb
    have hbody := Heap.count_body ho (o.refcnt + 1)
    have hcount : w.heap.count e.value = some o.refcnt := by
      rw [Heap.count, ho, Option.map_some]
    refine ⟨w.heap.set e.value (some { o with refcnt := o.refcnt + 1 }), eq_ok_of_ends ?_, hbody,
      rfl, ?_⟩
    · exact (lookup_ends_some hg.tidy hd hkey hf ho).mpr ⟨rfl, rfl⟩
    · refine hg.withCounts hbody le_rfl (hg.live.retain e.value o) (fun p hp => ?_)
        (fun p n hp => ?_)
      · have hne : p ≠ e.value := by
          rintro rfl
          rw [hb] at hp
          cases hp
        rw [Option.elim, update_of_ne hne]
        exact hg.held p hp
      · have hp' : (w.heap.set e.value (some { o with refcnt := o.refcnt + 1 })).count p
          = some n := hp
        rw [Heap.set_count, update_apply] at hp'
        show n = update w.held e.value (w.held e.value + 1) p +
          owned (w.heap.set e.value (some { o with refcnt := o.refcnt + 1 })).body w.heap.next p
        rw [hbody, update_apply]
        by_cases hpv : p = e.value
        · subst hpv
          have hold := hg.accounted e.value o.refcnt hcount
          rw [if_pos rfl] at hp' ⊢
          have hn : o.refcnt + 1 = n := Option.some.inj hp'
          omega
        · rw [if_neg hpv] at hp' ⊢
          exact hg.accounted p n hp'

theorem Good.owned_none (hg : Good w) (hs : w.heap.body s = none) :
    owned w.heap.body w.heap.next s = 0 := by
  refine Finset.sum_eq_zero fun q _ => ?_
  cases hq : w.heap.body q with
  | none => rfl
  | some b =>
    rw [Option.map_some, Option.getD_some, Body.refs]
    cases b with
    | dictionary t =>
      refine List.sum_eq_zero fun n hn => ?_
      obtain ⟨e, he, rfl⟩ := List.mem_map.mp hn
      rw [if_neg (hg.tidy.key_ne hq he hs), if_neg (hg.tidy.value_ne hq he hs), Nat.add_zero]
    | _ => rfl

/-- **A new string**, of which the caller has the only reference. -/
theorem Good.withString (hg : Good w) (str : Option (List UInt8)) :
    Good ⟨w.heap.withString str, update w.held w.heap.next 1, w.inserted⟩ := by
  have hnone := hg.fresh w.heap.next le_rfl
  have hbody := withString_body w.heap str
  have hcount := withString_count w.heap str
  have htable : ∀ d t, (w.heap.withString str).body d = some (.dictionary t) →
      w.heap.body d = some (.dictionary t) := by
    intro d t hd
    rw [hbody, update_apply] at hd
    split at hd
    · cases hd
    · exact hd
  have htext : ∀ d t, w.heap.body d = some (.dictionary t) → ∀ e ∈ t.entries,
      textOf (w.heap.withString str).body e.key = textOf w.heap.body e.key := by
    intro d t hd e he
    rw [hbody, textOf_other (hg.tidy.key_ne hd he hnone)]
  refine ⟨fun p n hp => ?_, fun p hp => ?_, fun p hp => ?_, fun p n hp => ?_,
    ⟨fun d t hd e he => ?_, fun d t hd e he => ?_, fun d t hd => ?_⟩,
    fun d t hd => hg.room d t (htable d t hd), fun d t hd k => ?_⟩
  · have hp' : (w.heap.withString str).count p = some n := hp
    rw [hcount, update_apply] at hp'
    split at hp'
    · cases hp'
      exact Nat.one_pos
    · exact hg.live p n hp'
  · have hle : w.heap.next + 1 ≤ p := hp
    show (w.heap.withString str).body p = none
    rw [hbody, update_of_ne (by omega)]
    exact hg.fresh p (by omega)
  · have hp' : (w.heap.withString str).body p = none := hp
    rw [hbody, update_apply] at hp'
    show update w.held w.heap.next 1 p = 0
    split at hp'
    · cases hp'
    · rw [update_of_ne ‹_›]
      exact hg.held p hp'
  · have hp' : (w.heap.withString str).count p = some n := hp
    show n = update w.held w.heap.next 1 p +
      owned (w.heap.withString str).body (w.heap.next + 1) p
    rw [hcount, update_apply] at hp'
    rw [hbody, owned_new rfl, update_apply]
    split at hp'
    · subst p
      rw [if_pos rfl, hg.owned_none hnone]
      exact (Option.some.inj hp').symm
    · rw [if_neg ‹_›]
      exact hg.accounted p n hp'
  · rw [htext d t (htable d t hd) e he]
    exact hg.tidy.key d t (htable d t hd) e he
  · obtain ⟨b, hb⟩ := hg.tidy.value d t (htable d t hd) e he
    refine ⟨b, ?_⟩
    show (w.heap.withString str).body e.value = some b
    rw [hbody, update_of_ne (hg.tidy.value_ne (htable d t hd) he hnone)]
    exact hb
  · have hsame : (t.entries.map fun e => textOf (w.heap.withString str).body e.key)
        = t.entries.map fun e => textOf w.heap.body e.key :=
      List.map_congr_left fun e he => htext d t (htable d t hd) e he
    show (t.entries.map fun e => textOf (w.heap.withString str).body e.key).Nodup
    rw [hsame]
    exact hg.tidy.distinct d t (htable d t hd)
  · show (find (w.heap.withString str).body t k).map Entry.value = _
    rw [find_congr (htext d t (htable d t hd))]
    exact hg.history d t (htable d t hd) k

theorem Good.withString_old (hg : Good w) (hp : w.heap.body p = some b) :
    (w.heap.withString str).body p = some b := by
  rw [withString_body, update_of_ne (hg.lt_next hp).ne]
  exact hp

/-- **An insertion of a C string**: the string is a key of the dictionary, or nobody has it. -/
theorem Good.insertCStr (hg : Good w) (str : Option (List UInt8))
    (hd : w.heap.body d = some (.dictionary t))
    (hv : w.heap.body value = some b) :
    ∃ h', (∀ depth, Dictionary.insertCStr depth d str value () w.heap
        = .ok ((w.first d (textOfCStr str)).isNone, h')) ∧
      Good ⟨h', if w.first d (textOfCStr str) = none then w.held
          else update w.held w.heap.next 1,
        update w.inserted d (w.inserted d ++ [(textOfCStr str, value)])⟩ := by
  have hone : 0 < update w.held w.heap.next 1 w.heap.next := by
    rw [update_self]
    exact Nat.one_pos
  obtain ⟨h', hrun, hgood⟩ := (hg.withString str).insert (hg.withString_old hd)
    (withString_text w.heap str) hone (hg.withString_old hv)
  refine ⟨h', fun depth => ?_, ?_⟩
  · refine eq_ok_of_ends ?_
    rw [Dictionary.insertCStr, ends_bind, fromCStr_ends]
    exact (ends_of_ok (hrun depth)).mpr ⟨rfl, rfl⟩
  · have hfirst : ∀ x, World.first ⟨w.heap.withString str, x, w.inserted⟩ d (textOfCStr str)
        = w.first d (textOfCStr str) := fun _ => rfl
    rw [hfirst] at hgood
    by_cases hnone : w.first d (textOfCStr str) = none
    · rw [if_pos hnone] at hgood ⊢
      have hback : update (update w.held w.heap.next 1) w.heap.next
          (update w.held w.heap.next 1 w.heap.next - 1) = w.held := by
        rw [update_idem, update_self, Nat.sub_self,
          ← hg.held w.heap.next (hg.fresh w.heap.next le_rfl), update_eq_self]
      rw [← hback]
      exact hgood
    · rw [if_neg hnone] at hgood ⊢
      exact hgood

/-- **A lookup of a C string** takes its string away again. -/
theorem Good.lookupCStr (hg : Good w) (str : Option (List UInt8))
    (hd : w.heap.body d = some (.dictionary t)) :
    ∃ h', (∀ depth, Dictionary.lookupCStr (depth + 1) d str () w.heap
        = .ok (w.first d (textOfCStr str), h')) ∧
      Good ⟨h', (w.first d (textOfCStr str)).elim w.held
        fun v => update w.held v (w.held v + 1), w.inserted⟩ := by
  have hnone := hg.fresh w.heap.next le_rfl
  obtain ⟨h₁, hrun, hbody, hnext, hgood⟩ := (hg.withString str).lookup (hg.withString_old hd)
    (withString_text w.heap str)
  have hfirst : ∀ x, World.first ⟨w.heap.withString str, x, w.inserted⟩ d (textOfCStr str)
      = w.first d (textOfCStr str) := fun _ => rfl
  rw [hfirst] at hrun hgood
  rw [show (World.mk (w.heap.withString str) (update w.held w.heap.next 1) w.inserted).heap
    = w.heap.withString str from rfl] at hbody hnext
  rw [withString_body] at hbody
  -- the value is another object than the string
  have hvalue : ∀ v, w.first d (textOfCStr str) = some v → v ≠ w.heap.next := by
    intro v hv
    have hhistory := (hg.history d t hd (textOfCStr str)).trans hv
    obtain ⟨e, he, rfl⟩ := Option.map_eq_some_iff.mp hhistory
    exact hg.tidy.value_ne hd (find_some he).1 hnone
  have hheld : ∀ p, (w.first d (textOfCStr str)).elim (update w.held w.heap.next 1)
      (fun v => update (update w.held w.heap.next 1) v (update w.held w.heap.next 1 v + 1)) p
      = if p = w.heap.next then 1 else (w.first d (textOfCStr str)).elim w.held
        (fun v => update w.held v (w.held v + 1)) p := by
    intro p
    cases hf : w.first d (textOfCStr str) with
    | none => rw [Option.elim, Option.elim, update_apply]
    | some v =>
      have hne := hvalue v hf
      simp only [Option.elim, update_apply, if_neg hne]
      by_cases hp : p = w.heap.next
      · rw [if_pos hp, if_pos hp, if_neg (hp ▸ hne.symm)]
      · rw [if_neg hp, if_neg hp]
  obtain ⟨o, ho, hstring⟩ := Heap.object_of_body (h := h₁) (p := w.heap.next)
    (b := .string (str.map cString)) (by rw [hbody, update_self])
  have hcounted : ∀ p n, h₁.count p = some n → n = (if p = w.heap.next then 1 else
      (w.first d (textOfCStr str)).elim w.held (fun v => update w.held v (w.held v + 1)) p) +
      owned w.heap.body w.heap.next p := by
    intro p n hp
    have hacc := hgood.accounted p n hp
    dsimp only at hacc
    rw [hheld] at hacc
    rw [hacc]
    show _ + owned h₁.body h₁.next p = _
    rw [hbody, hnext]
    exact congrArg _ (owned_new rfl)
  have hlast : o.refcnt = 1 := by
    have hn := hcounted w.heap.next o.refcnt (by rw [Heap.count, ho, Option.map_some])
    rw [if_pos rfl, hg.owned_none hnone] at hn
    exact hn
  have hbody' : (h₁.set w.heap.next none).body = w.heap.body := by
    rw [Heap.set_body, hbody, update_idem, Option.map_none, ← hnone, update_eq_self]
  refine ⟨h₁.set w.heap.next none, fun depth => eq_ok_of_ends ?_, ?_⟩
  · rw [Dictionary.lookupCStr, ends_bind, fromCStr_ends, ends_bind, ends_of_ok hrun, ends_bind,
      release_ends_last ho hlast (by rw [hstring]; rfl), ends_pure]
    exact ⟨rfl, rfl⟩
  · refine hg.withCounts hbody' (hnext ▸ Nat.le_succ _) (fun p n hp => ?_) (fun p hp => ?_)
      (fun p n hp => ?_)
    · rw [Heap.set_count, update_apply] at hp
      split at hp
      · cases hp
      · exact hgood.live p n hp
    · cases hf : w.first d (textOfCStr str) with
      | none => exact hg.held p hp
      | some v =>
        obtain ⟨e, he, rfl⟩ := Option.map_eq_some_iff.mp
          ((hg.history d t hd (textOfCStr str)).trans hf)
        have hne : p ≠ e.value := (hg.tidy.value_ne hd (find_some he).1 hp).symm
        rw [Option.elim, update_of_ne hne]
        exact hg.held p hp
    · have hp' : (h₁.set w.heap.next none).count p = some n := hp
      rw [Heap.set_count, update_apply] at hp'
      split at hp'
      · cases hp'
      · have hn := hcounted p n hp'
        rw [if_neg ‹_›] at hn
        rw [hn]
        show _ = _ + owned (h₁.set w.heap.next none).body h₁.next p
        rw [hbody', hnext]
        exact congrArg _ (owned_succ hnone).symm

/-! ## Runs -/

theorem step_of_run {n : ℕ} (hrun : ∀ depth, n ≤ depth → c.run depth () w.heap = .ok (r, h')) :
    Step w c r ⟨h', c.heldAfter w.held r, c.insertedAfter w⟩ :=
  ⟨h', ⟨n, hrun⟩, rfl⟩

theorem Step.unique {r' : Result} {w'' : World} (hs : Step w c r w') (hs' : Step w c r' w'') :
    r = r' ∧ w' = w'' := by
  obtain ⟨h', ⟨n, hn⟩, rfl⟩ := hs
  obtain ⟨h'', ⟨n', hn'⟩, rfl⟩ := hs'
  have heq := (hn (max n n') (le_max_left n n')).symm.trans (hn' _ (le_max_right n n'))
  obtain ⟨rfl, rfl⟩ := Prod.mk.inj (Except.ok.inj heq)
  exact ⟨rfl, rfl⟩

theorem run_eq {α : Type} {x : DictM α} {f : α → Result} {a : α} (hx : x () h = .ok (a, h')) :
    (f <$> x) () h = .ok (f a, h') := by
  refine eq_ok_of_ends ?_
  rw [ends_map]
  exact (ends_of_ok hx).mpr ⟨rfl, rfl⟩

theorem heldAfter_lookupCStr (d : ℕ) (key : Option (List UInt8)) (o : Option ℕ) :
    (Call.lookupCStr d key).heldAfter held (.found o) =
      o.elim held fun v => update held v (held v + 1) := by
  cases o with
  | none => rfl
  | some v => rfl

theorem heldAfter_lookup (d key : ℕ) (o : Option ℕ) :
    (Call.lookup d key).heldAfter held (.found o) =
      o.elim held fun v => update held v (held v + 1) := by
  cases o with
  | none => rfl
  | some v => rfl

theorem Good.step_isEqual (hg : Good w) {x y : ℕ} (hc : Comparable w.heap.body x y) :
    ∃ b, (b = true ↔ Same w.heap.body x y) ∧ Step w (.isEqual x y) (.equal b) w := by
  classical
  obtain ⟨n, hn⟩ := isEqual_spec hg.tidy hc
  refine ⟨decide (Same w.heap.body x y), decide_eq_true_iff, w.heap, ⟨n, fun depth hdepth => ?_⟩,
    rfl⟩
  refine eq_ok_of_ends ?_
  rw [Call.run, ends_map]
  refine (hn depth hdepth w.heap rfl hg.live).imp ?_
  rintro b h ⟨rfl, hb⟩
  refine ⟨?_, rfl⟩
  congr 1
  rw [Bool.eq_iff_iff, hb, decide_eq_true_iff]

/-- **One call.** -/
theorem Good.step (hg : Good w) (hv : Valid w c) (hm : Meets w c) :
    ∃ r w', Step w c r w' ∧ Answers w c r ∧ Good w' := by
  cases c with
  | insertCStr d key value =>
    obtain ⟨⟨t, hd⟩, b, hb⟩ := hv
    obtain ⟨h', hrun, hgood⟩ := hg.insertCStr key hd hb
    have hnone : w.first d (textOfCStr key) = none := by
      rw [World.first, Option.map_eq_none_iff, List.find?_eq_none]
      exact fun x hx hkey => hm x hx (of_decide_eq_true hkey)
    rw [if_pos hnone] at hgood
    have hstep : Step w (.insertCStr d key value)
        (.accepted (w.first d (textOfCStr key)).isNone) _ :=
      step_of_run (n := 0) fun depth _ => run_eq (hrun depth)
    exact ⟨_, _, hstep, rfl, hgood⟩
  | insert d key value =>
    obtain ⟨⟨t, hd⟩, ⟨text, hkey⟩, hheld, b, hb⟩ := hv
    obtain ⟨h', hrun, hgood⟩ := hg.insert hd hkey hheld hb
    have hstep : Step w (.insert d key value) (.accepted (w.first d text).isNone) _ :=
      step_of_run (n := 0) fun depth _ => run_eq (hrun depth)
    have htext : (textOf w.heap.body key).getD [] = text := by
      rw [hkey, Option.getD_some]
    refine ⟨_, _, hstep, ?_, ?_⟩
    · show _ = (w.first d ((textOf w.heap.body key).getD [])).isNone
      rw [htext]
    · show Good ⟨h', _, update w.inserted d (w.inserted d ++
        [((textOf w.heap.body key).getD [], value)])⟩
      rw [htext]
      cases hf : w.first d text with
      | none =>
        rw [if_pos hf] at hgood
        exact hgood
      | some v =>
        rw [if_neg (by rw [hf]; exact Option.some_ne_none v)] at hgood
        exact hgood
  | lookupCStr d key =>
    obtain ⟨t, hd⟩ := hv
    obtain ⟨h', hrun, hgood⟩ := hg.lookupCStr key hd
    have hstep : Step w (.lookupCStr d key) (.found (w.first d (textOfCStr key))) _ :=
      step_of_run (n := 1) fun depth hdepth => by
        obtain ⟨m, rfl⟩ := Nat.exists_eq_add_of_le' hdepth
        exact run_eq (hrun m)
    refine ⟨_, _, hstep, rfl, ?_⟩
    rw [← heldAfter_lookupCStr d key] at hgood
    exact hgood
  | lookup d key =>
    obtain ⟨⟨t, hd⟩, text, hkey⟩ := hv
    obtain ⟨h', hrun, -, -, hgood⟩ := hg.lookup hd hkey
    have hstep : Step w (.lookup d key) (.found (w.first d text)) _ :=
      step_of_run (n := 0) fun depth _ => run_eq hrun
    refine ⟨_, _, hstep, ?_, ?_⟩
    · show _ = w.first d ((textOf w.heap.body key).getD [])
      rw [hkey, Option.getD_some]
    · rw [← heldAfter_lookup d key] at hgood
      exact hgood
  | isEqual x y =>
    obtain ⟨b, hb, hstep⟩ := hg.step_isEqual hm
    obtain ⟨b', hb', hstep'⟩ := hg.step_isEqual hm.symm
    have hsame : b' = b := by
      rw [Bool.eq_iff_iff, hb, hb']
      exact ⟨Same.symm, Same.symm⟩
    exact ⟨_, w, hstep, ⟨hb, w, hsame ▸ hstep'⟩, hg⟩

/-- A run of calls that do what they should. -/
inductive Run (w₀ : World) : World → Prop
  | start : Run w₀ w₀
  | call {w w' : World} {c : Call} {r : Result} (hrun : Run w₀ w) (hv : Valid w c)
      (hm : Meets w c) (hs : Step w c r w') : Run w₀ w'

theorem Run.good {w₀ : World} (hs : Start w₀) (hrun : Run w₀ w) : Good w := by
  induction hrun with
  | start => exact hs.good
  | call _ hv hm hstep ih =>
    obtain ⟨r, w', hstep', -, hgood⟩ := ih.step hv hm
    rw [(hstep.unique hstep').2]
    exact hgood

/-- **A dictionary is a map**, as long as no C string is inserted a second time and objects are
compared that can be: every call returns, with the answer that it should, and leaves every
reference with an owner. -/
theorem Run.answers {w₀ : World} (hs : Start w₀) (hrun : Run w₀ w) (hv : Valid w c)
    (hm : Meets w c) :
    ∃ r w', Step w c r w' ∧ Answers w c r ∧ w'.Accounted := by
  obtain ⟨r, w', hstep, hanswer, hgood⟩ := (hrun.good hs).step hv hm
  exact ⟨r, w', hstep, hanswer, hgood.accounted⟩

/-! ## What goes wrong -/

/-- **An insertion of a C string loses no reference** exactly if the key is new. -/
theorem Good.accounted_insertCStr_iff (hg : Good w)
    (hv : Valid w (.insertCStr d str value)) :
    (∀ r w', Step w (.insertCStr d str value) r w' → w'.Accounted) ↔
      Meets w (.insertCStr d str value) := by
  constructor
  · intro hall x hx hkey
    obtain ⟨⟨t, hd⟩, b, hb⟩ := hv
    obtain ⟨h', hrun, hgood⟩ := hg.insertCStr str hd hb
    have hfirst : w.first d (textOfCStr str) ≠ none := by
      rw [World.first, Ne, Option.map_eq_none_iff, List.find?_eq_none]
      exact fun hnone => hnone x hx (decide_eq_true hkey)
    rw [if_neg hfirst] at hgood
    -- the string has a reference, but no owner
    have hstring : ∃ n, h'.count w.heap.next = some n := by
      cases hbody : h'.body w.heap.next with
      | none =>
        have hzero : update w.held w.heap.next 1 w.heap.next = 0 := hgood.held _ hbody
        rw [update_self] at hzero
        cases hzero
      | some b => exact Heap.count_of_body hbody
    obtain ⟨n, hn⟩ := hstring
    have hone : n = update w.held w.heap.next 1 w.heap.next + _ :=
      hgood.accounted w.heap.next n hn
    have hnone : n = w.held w.heap.next + _ :=
      hall _ _ (step_of_run (n := 0) fun depth _ => run_eq (hrun depth)) w.heap.next n hn
    rw [update_self] at hone
    rw [hg.held _ (hg.fresh _ le_rfl)] at hnone
    have hsame := hone.symm.trans hnone
    exact absurd (Nat.add_right_cancel hsame) Nat.one_ne_zero
  · intro hm r w' hs
    obtain ⟨r', w'', hs', -, hgood⟩ := hg.step hv hm
    rw [(hs.unique hs').2]
    exact hgood.accounted

/-- A dictionary, and a string to put into it. -/
def oneString : World where
  heap := {
    object := fun p =>
      if p = 0 then some ⟨1, .dictionary ⟨[], 0⟩⟩
      else if p = 1 then some ⟨1, .string (some [97])⟩ else none
    next := 2 }
  held := fun p => if p < 2 then 1 else 0
  inserted := fun _ => []

theorem oneString_cases (h : oneString.heap.object p = some o) :
    p = 0 ∧ o = ⟨1, .dictionary ⟨[], 0⟩⟩ ∨ p = 1 ∧ o = ⟨1, .string (some [97])⟩ := by
  simp only [oneString] at h
  split at h
  · exact Or.inl ⟨‹_›, (Option.some.inj h).symm⟩
  · split at h
    · exact Or.inr ⟨‹_›, (Option.some.inj h).symm⟩
    · cases h

theorem oneString_start : Start oneString := by
  have hcount : ∀ p n, oneString.heap.count p = some n → p < 2 ∧ n = 1 := by
    intro p n hp
    obtain ⟨o, ho, rfl⟩ := Option.map_eq_some_iff.mp hp
    rcases oneString_cases ho with ⟨rfl, rfl⟩ | ⟨rfl, rfl⟩
    · exact ⟨by decide, rfl⟩
    · exact ⟨by decide, rfl⟩
  have hbody : ∀ p, oneString.heap.body p = none → 2 ≤ p := by
    intro p hp
    by_contra hlt
    have hsmall : p = 0 ∨ p = 1 := by omega
    rcases hsmall with rfl | rfl
    · cases hp
    · cases hp
  refine ⟨fun p n hp => ?_, fun p hp => ?_, fun p hp => if_neg (not_lt.mpr (hbody p hp)),
    fun p n hp => ?_, fun d t hd => ?_, fun d => rfl⟩
  · rw [(hcount p n hp).2]
    exact Nat.one_pos
  · cases hb : oneString.heap.body p with
    | none => rfl
    | some b =>
      obtain ⟨n, hn⟩ := Heap.count_of_body hb
      have hlt := (hcount p n hn).1
      have hle : 2 ≤ p := hp
      omega
  · obtain ⟨hlt, rfl⟩ := hcount p n hp
    show 1 = (if p < 2 then 1 else 0) + owned oneString.heap.body 2 p
    have hzero : owned oneString.heap.body 2 p = 0 := rfl
    rw [if_pos hlt, hzero]
  · obtain ⟨o, ho, hbody⟩ := Heap.object_of_body hd
    rcases oneString_cases ho with ⟨-, rfl⟩ | ⟨-, rfl⟩
    · rw [← Body.dictionary.inj hbody]
    · cases hbody

/-- The first insertion of a key. -/
theorem answers_first_insertion :
    ∃ r w', Step oneString (.insertCStr 0 (some [97]) 1) r w' ∧
      Answers oneString (.insertCStr 0 (some [97]) 1) r ∧ w'.Accounted :=
  Run.answers oneString_start .start ⟨⟨_, rfl⟩, _, rfl⟩ fun _ hx => absurd hx List.not_mem_nil

/-- **The second insertion of a key** is refused, and its string lost; and the dictionary says that
it is equal to a string. -/
theorem not_answers :
    Start oneString ∧
    (∃ w w', Step oneString (.insertCStr 0 (some [97]) 1) (.accepted true) w ∧
      Valid w (.insertCStr 0 (some [97]) 1) ∧
      Step w (.insertCStr 0 (some [97]) 1) (.accepted false) w' ∧ ¬ w'.Accounted) ∧
    Valid oneString (.isEqual 0 1) ∧
    Step oneString (.isEqual 0 1) (.equal true) oneString ∧
      ¬ Answers oneString (.isEqual 0 1) (.equal true) := by
  have hplain : ∀ m, (isEqual (m + 1) 0 1).Ends () oneString.heap
      (fun equal h' => equal = true ∧ h' = oneString.heap) (fun _ => False) ∧
      ¬ Same oneString.heap.body 0 1 := fun m =>
    isEqual_plain (t := ⟨[], 0⟩) (b := .string (some [97])) rfl rfl rfl
  refine ⟨oneString_start, ⟨_, _, ⟨_, ⟨0, fun _ _ => rfl⟩, rfl⟩, ⟨⟨_, rfl⟩, _, rfl⟩,
    ⟨_, ⟨0, fun _ _ => rfl⟩, rfl⟩, fun h => ?_⟩, ⟨⟨_, rfl⟩, _, rfl⟩, ?_, ?_⟩
  · exact absurd (h 3 1 rfl) (by decide)
  · refine step_of_run (n := 1) fun depth hdepth => ?_
    obtain ⟨m, rfl⟩ := Nat.exists_eq_add_of_le' hdepth
    exact run_eq (eq_ok_of_ends (hplain m).1)
  · exact fun h => (hplain 0).2 (h.1.mp rfl)

end Dictionary
