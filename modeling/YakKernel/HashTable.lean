/-
# The hash table

`core/hashtable.c`: open addressing with tombstones.  A key is copied with its length, so that an
entry keeps the bytes; a pointer is a number, 0 for `NULL`.  The answers of the memory allocator
are part of the state; when they are used up it has memory, but never for more than the heap.
-/
import YakKernel.ProgramLogic
import YakKernel.Status

namespace HashTable

open Prog

/-! ## Tables -/

/-- The bytes of a key. -/
abbrev Key := List UInt8

/-- The functions that a table is made with. -/
structure Functions where
  hash : Key → UInt64
  eq : Key → Key → Bool

/-- `struct ht_entry`; `none` is a `NULL` key. -/
structure Entry where
  key : Option Key
  value : ℕ
  deriving DecidableEq

/-- `TOMB`. -/
def tomb : ℕ := 1

/-- An entry of fresh memory. -/
def Entry.blank : Entry where
  key := none
  value := 0

/-- A live entry or a tombstone. -/
def Entry.used (entry : Entry) : Bool := entry.key.isSome || entry.value = tomb

/-- `struct hashtable`, and the coming answers of the allocator.  The `capacity` is the length of
`entries`. -/
structure Table where
  count : ℕ
  entries : List Entry
  allocs : List Bool

def Table.capacity (t : Table) : ℕ := t.entries.length

/-- `ht_init`. -/
def Table.init : Table where
  count := 0
  entries := []
  allocs := []

/-- What ends a run. -/
inductive Failure where
  /-- a remainder by zero -/
  | divideByZero
  /-- an access outside the entries -/
  | outOfRange
  /-- a probe needs more rounds than it was given -/
  | diverges
  deriving DecidableEq

abbrev HtM := Prog Functions Failure Table

/-! ## Memory -/

/-- `KERNEL_HEAP_LENGTH`. -/
@[irreducible] def kernelHeapLength : ℕ := 32 * 2 ^ 30

/-- `sizeof(struct ht_entry)`. -/
def entrySize : ℕ := 24

/-- `kmalloc`, `kzalloc`: whether there is memory for so many bytes. -/
def kmalloc (size : ℕ) : HtM Bool := do
  let t ← getState
  change (fun t => { t with allocs := t.allocs.tail })
  pure (t.allocs.headD true && decide (size ≤ kernelHeapLength))

/-! ## Probes -/

/-- A `size_t` that is passed as an `int` and used as a `size_t` again. -/
def throughInt (n : ℕ) : ℕ :=
  if n % 2 ^ 32 < 2 ^ 31 then n % 2 ^ 32 else 2 ^ 64 - 2 ^ 32 + n % 2 ^ 32

/-- `entries[index]`. -/
def entryAt (entries : List Entry) (index : ℕ) : HtM Entry :=
  match entries[index]? with
  | some entry => pure entry
  | none => fail .outOfRange

/-- A round of the loop of `find_entry`: the next index and the first tombstone, or the entry. -/
def probeRound (entries : List Entry) (capacity : ℕ) (key : Key) (st : ℕ × Option ℕ) :
    HtM (ℕ × Option ℕ ⊕ ℕ) := do
  let f ← getEnv
  let entry ← entryAt entries st.1
  match entry.key with
  | none =>
    if entry.value = tomb then
      pure (.inl ((st.1 + 1) % capacity, st.2 <|> some st.1))
    else pure (.inr (st.2.getD st.1))
  | some k =>
    if key.length = k.length ∧ f.eq key k then pure (.inr st.1)
    else pure (.inl ((st.1 + 1) % capacity, st.2))

/-- `find_entry`, for so many rounds. -/
def findEntryWithin (rounds : ℕ) (entries : List Entry) (capacity : ℕ) (key : Key) : HtM ℕ := do
  let f ← getEnv
  let capacity := throughInt capacity
  check (capacity ≠ 0) .divideByZero
  loop (probeRound entries capacity key) .diverges rounds ((f.hash key).toNat % capacity, none)

/-- `find_entry`; as many rounds as there are entries suffice. -/
def findEntry (entries : List Entry) (capacity : ℕ) (key : Key) : HtM ℕ :=
  findEntryWithin capacity entries capacity key

/-! ## Operations -/

@[simps -fullyApplied]
def Table.counted (t : Table) : Table := { t with count := t.count + 1 }

/-- The loop of `ht_resize` over the entries: the new ones. -/
def reinsert (newCap : ℕ) : List Entry → List Entry → HtM (List Entry)
  | [], entries => pure entries
  | entry :: rest, entries =>
    match entry.key with
    | none => reinsert newCap rest entries
    | some key => do
      let dest ← findEntry entries newCap key
      change Table.counted
      reinsert newCap rest (entries.set dest entry)

/-- `ht_resize`. -/
def htResize (newCap : ℕ) : HtM Status := do
  if ← kmalloc (newCap * entrySize) then
    let t ← getState
    change (fun t => { t with count := 0 })
    let entries ← reinsert newCap t.entries (List.replicate newCap Entry.blank)
    change (fun t => { t with entries := entries })
    pure .success
  else pure .oom

/-- The first part of `ht_set`: the table grows above a load of three quarters. -/
def growIfLoaded : HtM Status := do
  let t ← getState
  if (t.count + 1) * 4 > t.capacity * 3 then
    htResize (if t.capacity = 0 then 16 else t.capacity * 2)
  else pure .success

/-- A new key is counted, unless it takes the place of a tombstone. -/
def countNew (entry : Entry) : HtM Unit :=
  if entry.key = none ∧ entry.value ≠ tomb then change Table.counted else pure ()

/-- The last part of `ht_set`: the entry takes a copy of the key. -/
def store (i : ℕ) (key : Key) (value : ℕ) : HtM Status := do
  if ← kmalloc key.length then
    change (fun t => { t with entries := t.entries.set i ⟨some key, value⟩ })
    pure .success
  else pure .oom

/-- `ht_set`. -/
def htSet (key : Key) (value : ℕ) (overwrite : Bool) : HtM Status := do
  let res ← growIfLoaded
  if res.isErr then pure res
  else
    let t ← getState
    let i ← findEntry t.entries t.capacity key
    let entry ← entryAt t.entries i
    if entry.key.isSome ∧ overwrite = false then pure .exists
    else
      countNew entry
      store i key value

/-- `ht_get`. -/
def htGet (key : Key) : HtM ℕ := do
  let t ← getState
  if t.count = 0 then pure 0
  else
    let i ← findEntry t.entries t.capacity key
    let entry ← entryAt t.entries i
    if entry.key.isNone then pure 0 else pure entry.value

/-- `ht_del`. -/
def htDel (key : Key) : HtM Bool := do
  let t ← getState
  if t.count = 0 then pure false
  else
    let i ← findEntry t.entries t.capacity key
    let entry ← entryAt t.entries i
    if entry.key.isNone then pure false
    else
      change (fun t => { t with entries := t.entries.set i ⟨none, tomb⟩ })
      pure true

/-! ## The ready-made functions -/

/-- `ht_hash_str`. -/
def htHashStr (data : Key) : UInt64 :=
  data.foldl (fun hash value => (hash ^^^ value.toUInt64) * 0x100000001b3) 0xcbf29ce484222325

/-- `ht_eq_str`, on keys of one length. -/
def htEqStr (a b : Key) : Bool := a == b

/-- The functions of most tables. -/
def Functions.str : Functions where
  hash := htHashStr
  eq := htEqStr

end HashTable
