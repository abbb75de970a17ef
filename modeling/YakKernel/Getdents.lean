/-
# Directory listings

`tmpfs_getdirents` and `sys_getdents`.  The offset of an open directory counts the live entries of
its hash table, in the order of the slots; a call writes a record of bytes for each further entry,
as long as the next one fits into the buffer.  The reader walks the records by their `d_reclen`,
two bytes wide.  A call is one batch of the entries that are left, and says that it wrote nothing
also when there was no room.
-/
import YakKernel.Batches
import YakKernel.ByteMemory
import YakKernel.HashTableFail
import YakKernel.Vfs

namespace Getdents

open ByteMemory HashTable Batches

/-! ## Directories -/

/-- What a `struct tmpfs_node` tells of itself in a listing: `vattr.inode` and `vnode.type`. -/
structure Child where
  inode : ℕ
  type : Vfs.VType

/-- A directory of tmpfs: its `children`, and the nodes that the values of the table point to.  The
table was made by its operations, from names without a null byte; an inode is a word. -/
structure Directory where
  children : Table
  node : ℕ → Child
  made : ∃ s : HashTable.State, (system Functions.str).Reachable s ∧ s.table = children
  names : ∀ entry ∈ children.entries, ∀ name, entry.key = some name → (0 : UInt8) ∉ name
  inode_lt : ∀ value, (node value).inode < 2 ^ 64

/-- `vtype_to_dtype`. -/
def vtypeToDtype : Vfs.VType → UInt8
  | .vreg => 8
  | .vblk => 6
  | .vdir => 4
  | .vchr => 2
  | .vfifo => 1
  | .vlnk => 10
  | .vsock => 12

/-- An entry of a listing. -/
structure Record where
  ino : ℕ
  type : UInt8
  name : Key
  deriving DecidableEq

/-- The record of a name and the value that the table has for it. -/
def Directory.record (d : Directory) (elm : Key × ℕ) : Record where
  ino := (d.node elm.2).inode
  type := vtypeToDtype (d.node elm.2).type
  name := elm.1

/-- The directory has the entry. -/
def Directory.HasEntry (d : Directory) (r : Record) : Prop :=
  ∃ value, d.children.Has Functions.str_consistent r.name value ∧ r = d.record (r.name, value)

/-! ## `tmpfs_getdirents` -/

/-- The bytes of a memory. -/
abbrev Memory := ℕ → UInt8

/-- `reclen`: `offsetof(struct mlibc_dirent, d_name)` is 19, and records are aligned to words. -/
def reclen (elm : Key × ℕ) : ℕ := (19 + elm.1.length + 1 + 7) / 8 * 8

/-- The fields of a `struct mlibc_dirent`: `d_ino`, `d_off`, `d_reclen`, `d_type` and `d_name`. -/
def Directory.dirent (d : Directory) (elm : Key × ℕ) : List UInt8 :=
  littleEndian 8 (d.record elm).ino ++ littleEndian 8 0 ++ littleEndian 2 (reclen elm) ++
    [(d.record elm).type] ++ elm.1 ++ [0]

/-- The user's memory, `curr_index` and `total_read`. -/
structure Listing where
  mem : Memory
  currIndex : ℕ
  totalRead : ℕ

/-- The loop `HASHTABLE_FOR_EACH` of `tmpfs_getdirents`. -/
def Directory.list (d : Directory) (buf bufsize offset : ℕ) : List Entry → Listing → Listing
  | [], st => st
  | elm :: entries, st =>
    match elm.key with
    | none => d.list buf bufsize offset entries st
    | some name =>
      if offset > st.currIndex then
        d.list buf bufsize offset entries { st with currIndex := st.currIndex + 1 }
      else if st.totalRead + reclen (name, elm.value) > bufsize then st
      else d.list buf bufsize offset entries
        { mem := store st.mem (buf + st.totalRead) (d.dirent (name, elm.value))
          currIndex := st.currIndex + 1
          totalRead := st.totalRead + reclen (name, elm.value) }

/-- A node of tmpfs, as the listing sees it. -/
structure Node where
  type : Vfs.VType
  dir : Directory

/-- What `tmpfs_getdirents` leaves: its status, the memory, `*offset` and `*bytes_read`. -/
structure Answer where
  status : Status
  mem : Memory
  offset : ℕ
  bytesRead : ℕ

/-- `tmpfs_getdirents`. -/
def tmpfsGetdirents (vn : Node) (mem : Memory) (buf bufsize offset bytesRead : ℕ) : Answer :=
  if vn.type ≠ .vdir then ⟨.nodir, mem, offset, bytesRead⟩
  else
    let st := vn.dir.list buf bufsize offset vn.dir.children.entries ⟨mem, 0, 0⟩
    ⟨.success, st.mem, st.currIndex, st.totalRead⟩

/-! ## `sys_getdents` -/

/-- The fields of `struct file` that the call uses. -/
structure File where
  read : Bool
  vnode : Node
  offset : ℕ

/-- What an error of the call says. -/
inductive Errno where
  | ebadf
  | enotdir
  | ofStatus (rv : Status)

/-- `sys_getdents` on the file that the descriptor names, if it names one: the result, the file
and the user's memory. -/
def sysGetdents (file : Option File) (mem : Memory) (buffer maxSize : ℕ) :
    Except Errno ℕ × Option File × Memory :=
  match file with
  | none => (.error .ebadf, none, mem)
  | some file =>
    if file.read = false then (.error .ebadf, some file, mem)
    else if file.vnode.type ≠ .vdir then (.error .enotdir, some file, mem)
    else
      let a := tmpfsGetdirents file.vnode mem buffer maxSize file.offset 0
      if a.status.isErr then (.error (.ofStatus a.status), some file, a.mem)
      else (.ok a.bytesRead, some { file with offset := a.offset }, a.mem)

/-! ## Reading the records -/

/-- The record at an address, with so many bytes left to read. -/
def readRecord (mem : Memory) (addr left : ℕ) : Record where
  ino := readWord mem addr
  type := mem (addr + 18)
  name := (readString mem left (addr + 19)).getD []

/-- Walk the records, from each one to the next by its `d_reclen`. -/
def readRecords (mem : Memory) : ℕ → ℕ → ℕ → List Record
  | 0, _, _ => []
  | fuel + 1, addr, left =>
    if left = 0 then []
    else
      let dReclen := ofLittleEndian (readBytes mem (addr + 16) 2)
      readRecord mem addr left :: readRecords mem fuel (addr + dReclen) (left - dReclen)

/-! ## Listings -/

/-- A buffer for a call, and the memory that the call finds. -/
structure Call where
  buf : ℕ
  bufsize : ℕ
  before : Memory
  fits : buf + bufsize ≤ 2 ^ 64

/-- A call that is over: the memory, and the number of bytes that it stored. -/
structure Done where
  call : Call
  after : Memory
  bytesRead : ℕ

/-- The records that a call put into its buffer. -/
def Done.records (c : Done) : List Record :=
  readRecords c.after c.bytesRead c.call.buf c.bytesRead

/-- The offset, and the calls so far. -/
structure State where
  offset : ℕ
  calls : List Done

/-- All records so far. -/
def State.listed (s : State) : List Record := s.calls.flatMap Done.records

/-- The state after a call. -/
def Directory.next (d : Directory) (s : State) (c : Call) : State :=
  let a := tmpfsGetdirents ⟨.vdir, d⟩ c.before c.buf c.bufsize s.offset 0
  { offset := a.offset, calls := s.calls ++ [⟨c, a.mem, a.bytesRead⟩] }

/-- Calls one after the other, each from the offset that the one before returned. -/
def Directory.system (d : Directory) : TransitionSystem State Call where
  init := fun s => s = ⟨0, []⟩
  step := fun s c => some (d.next s c)

/-- No call wrote outside its buffer. -/
def State.Inside (s : State) : Prop :=
  ∀ c ∈ s.calls, ∀ a, a < c.call.buf ∨ c.call.buf + c.call.bufsize ≤ a →
    c.after a = c.call.before a

/-- **A complete listing.**  No call wrote outside its buffer, the records are entries, each one is
there once, and after a call that stored no bytes every entry is there. -/
structure Directory.Complete (d : Directory) (s : State) : Prop where
  inside : s.Inside
  real : ∀ r ∈ s.listed, d.HasEntry r
  once : (s.listed.map Record.name).Nodup
  ended : ∀ c ∈ s.calls, c.bytesRead = 0 → ∀ r, d.HasEntry r → s.listed.count r = 1

variable {d : Directory} {mem : Memory} {addr buf bufsize offset a : ℕ} {elm : Key × ℕ}
  {elms : List (Key × ℕ)} {entries : List Entry} {st : Listing} {s s' : State} {c : Call}

/-! ## A call is a batch -/

/-- The live entries in the order of their slots. -/
def live (entries : List Entry) : List (Key × ℕ) :=
  entries.filterMap (fun elm => elm.key.map (·, elm.value))

/-- The memory after the records are written, one after the other. -/
def Directory.put (d : Directory) : Memory → ℕ → List (Key × ℕ) → Memory
  | mem, _, [] => mem
  | mem, addr, elm :: elms => d.put (store mem addr (d.dirent elm)) (addr + reclen elm) elms

/-- The entries that the loop lists. -/
def batch (bufsize offset : ℕ) (entries : List Entry) (st : Listing) : List (Key × ℕ) :=
  fitting reclen (bufsize - st.totalRead) ((live entries).drop (offset - st.currIndex))

/-- **The loop lists one batch** of the entries that are left. -/
theorem list_spec (d : Directory) (buf offset : ℕ) (h : st.totalRead ≤ bufsize) :
    d.list buf bufsize offset entries st =
      { mem := d.put st.mem (buf + st.totalRead) (batch bufsize offset entries st)
        currIndex := st.currIndex + min (offset - st.currIndex) (live entries).length +
          (batch bufsize offset entries st).length
        totalRead := st.totalRead + total reclen (batch bufsize offset entries st) } := by
  induction entries generalizing st with
  | nil =>
    have hbatch : batch bufsize offset [] st = [] := by
      rw [batch, live, List.filterMap_nil, List.drop_nil, fitting]
    rw [hbatch, live, List.filterMap_nil, List.length_nil, Nat.min_zero]
    rfl
  | cons entry entries ih =>
    cases hkey : entry.key with
    | none =>
      have hlive : live (entry :: entries) = live entries := by
        rw [live, List.filterMap_cons_none (by rw [hkey]; rfl), live]
      rw [Directory.list, hkey]
      simp only [batch, hlive]
      exact ih h
    | some name =>
      have hlive : live (entry :: entries) = (name, entry.value) :: live entries := by
        rw [live, List.filterMap_cons_some (by rw [hkey]; rfl), live]
      rw [Directory.list, hkey]
      dsimp only
      by_cases hskip : offset > st.currIndex
      · -- an entry that an earlier call has listed
        have hbatch : batch bufsize offset (entry :: entries) st =
            batch bufsize offset entries { st with currIndex := st.currIndex + 1 } := by
          rw [batch, batch, hlive, show offset - st.currIndex = offset - (st.currIndex + 1) + 1 by
            omega, List.drop_succ_cons]
        rw [if_pos hskip, hbatch, hlive, List.length_cons]
        refine (@ih { st with currIndex := st.currIndex + 1 } h).trans ?_
        congr 1
        dsimp only
        omega
      · have hzero : offset - st.currIndex = 0 := by omega
        by_cases hfull : st.totalRead + reclen (name, entry.value) > bufsize
        · have hbatch : batch bufsize offset (entry :: entries) st = [] := by
            rw [batch, hzero, List.drop_zero, hlive, fitting_of_lt (by omega)]
          rw [if_neg hskip, if_pos hfull, hbatch, hzero, Nat.zero_min]
          rfl
        · have hbatch : batch bufsize offset (entry :: entries) st = (name, entry.value) ::
              batch bufsize offset entries
                { mem := store st.mem (buf + st.totalRead) (d.dirent (name, entry.value))
                  currIndex := st.currIndex + 1
                  totalRead := st.totalRead + reclen (name, entry.value) } := by
            rw [batch, batch, hzero, List.drop_zero, hlive, fitting_of_le (by omega), Nat.sub_sub,
              show offset - (st.currIndex + 1) = 0 by omega, List.drop_zero]
          have hfits : st.totalRead + reclen (name, entry.value) ≤ bufsize := by omega
          rw [if_neg hskip, if_neg hfull, ih hfits, hbatch, total_cons, List.length_cons, hzero,
            show offset - (st.currIndex + 1) = 0 by omega, Directory.put]
          simp only [Nat.zero_min, Nat.add_assoc, Nat.add_comm 1, Nat.zero_add]

/-! ## Records in memory -/

theorem dirent_length (d : Directory) (elm : Key × ℕ) :
    (d.dirent elm).length = elm.1.length + 20 := by
  simp only [Directory.dirent, List.length_append, littleEndian_length, List.length_singleton]
  omega

theorem dirent_le (d : Directory) (elm : Key × ℕ) : (d.dirent elm).length ≤ reclen elm := by
  rw [dirent_length, reclen]
  omega

theorem reclen_pos (elm : Key × ℕ) : 0 < reclen elm := by
  rw [reclen]
  omega

/-- The records that are in memory from an address on. -/
def Directory.HoldsRecords (d : Directory) (mem : Memory) : ℕ → List (Key × ℕ) → Prop
  | _, [] => True
  | addr, elm :: elms =>
    Holds mem addr (d.dirent elm) ∧ d.HoldsRecords mem (addr + reclen elm) elms

theorem put_frame (hfit : addr + total reclen elms ≤ 2 ^ 64)
    (ha : a < addr ∨ addr + total reclen elms ≤ a) : d.put mem addr elms a = mem a := by
  induction elms generalizing mem addr with
  | nil => rfl
  | cons elm elms ih =>
    rw [total_cons] at hfit ha
    have hle := dirent_le d elm
    rw [Directory.put, ih (by omega) (by omega), store_frame (by omega) (by omega)]

theorem put_holds (hfit : addr + total reclen elms ≤ 2 ^ 64) :
    d.HoldsRecords (d.put mem addr elms) addr elms := by
  induction elms generalizing mem addr with
  | nil => trivial
  | cons elm elms ih =>
    rw [total_cons] at hfit
    have hle := dirent_le d elm
    have hstored : Holds (store mem addr (d.dirent elm)) addr (d.dirent elm) :=
      store_holds (by omega)
    refine ⟨hstored.congr (fun a _ hlt => ?_), ih (by omega)⟩
    have hframe : d.put (store mem addr (d.dirent elm)) (addr + reclen elm) elms a =
        store mem addr (d.dirent elm) a := put_frame (by omega) (.inl (by omega))
    exact hframe

/-- **The fields of a record** are read back; its length, modulo `2 ^ 16`. -/
theorem readRecord_eq (h : Holds mem addr (d.dirent elm)) (hname : (0 : UInt8) ∉ elm.1) {left : ℕ}
    (hleft : elm.1.length < left) :
    readRecord mem addr left = d.record elm ∧
      ofLittleEndian (readBytes mem (addr + 16) 2) = reclen elm % 2 ^ 16 := by
  have hsplit : d.dirent elm = littleEndian 8 (d.record elm).ino ++ (littleEndian 8 0 ++
      (littleEndian 2 (reclen elm) ++ ([(d.record elm).type] ++ (elm.1 ++ [0])))) := by
    simp only [Directory.dirent, List.append_assoc]
  rw [hsplit] at h
  obtain ⟨hino, hrest⟩ := (holds_append ..).mp h
  obtain ⟨-, hrest⟩ := (holds_append ..).mp hrest
  obtain ⟨hreclen, hrest⟩ := (holds_append ..).mp hrest
  obtain ⟨htype, hstring⟩ := (holds_append ..).mp hrest
  simp only [littleEndian_length, List.length_singleton, Nat.add_assoc, Nat.reduceAdd] at *
  constructor
  · have hread : readWord mem addr = (d.record elm).ino := readWord_eq hino (d.inode_lt elm.2)
    have hchars : readString mem left (addr + 19) = some elm.1 :=
      readString_eq hstring hname hleft
    have hbyte : mem (addr + 18) = (d.record elm).type := htype.1
    rw [readRecord, hread, hchars, hbyte]
    rfl
  · have hbytes := readBytes_eq hreclen
    rw [littleEndian_length] at hbytes
    rw [hbytes, ofLittleEndian_littleEndian]
    norm_num

/-- **The records are read back**, as long as each is shorter than `2 ^ 16` bytes. -/
theorem readRecords_eq (h : d.HoldsRecords mem addr elms)
    (hshort : ∀ elm ∈ elms, reclen elm < 2 ^ 16) (hnames : ∀ elm ∈ elms, (0 : UInt8) ∉ elm.1)
    {fuel : ℕ} (hfuel : elms.length ≤ fuel) :
    readRecords mem fuel addr (total reclen elms) = elms.map d.record := by
  induction elms generalizing addr fuel with
  | nil =>
    cases fuel with
    | zero => rfl
    | succ fuel => rw [readRecords, if_pos total_nil, List.map_nil]
  | cons elm elms ih =>
    rw [List.length_cons] at hfuel
    obtain ⟨fuel, rfl⟩ : ∃ n, fuel = n + 1 := ⟨fuel - 1, by omega⟩
    have hpos := reclen_pos elm
    have hle := dirent_le d elm
    rw [dirent_length] at hle
    have hleft : elm.1.length < total reclen (elm :: elms) := by
      rw [total_cons]
      omega
    obtain ⟨hrecord, hlength⟩ := readRecord_eq h.1 (hnames elm List.mem_cons_self) hleft
    rw [Nat.mod_eq_of_lt (hshort elm List.mem_cons_self)] at hlength
    have hrest := @ih (addr + reclen elm) h.2
      (fun e he => hshort e (List.mem_cons_of_mem elm he))
      (fun e he => hnames e (List.mem_cons_of_mem elm he)) fuel (by omega)
    have hne : total reclen (elm :: elms) ≠ 0 := by omega
    rw [readRecords, if_neg hne]
    dsimp only
    rw [hrecord, hlength, total_cons, Nat.add_sub_cancel_left, hrest, List.map_cons]

/-! ## The entries of a directory -/

theorem mem_live : elm ∈ live entries ↔ ∃ e ∈ entries, e.key = some elm.1 ∧ e.value = elm.2 := by
  rw [live, List.mem_filterMap]
  constructor
  · rintro ⟨e, he, hmap⟩
    obtain ⟨name, hkey, rfl⟩ := Option.map_eq_some_iff.mp hmap
    exact ⟨e, he, hkey, rfl⟩
  · rintro ⟨e, he, hkey, hvalue⟩
    refine ⟨e, he, ?_⟩
    rw [hkey, Option.map_some, hvalue]

theorem str_same {k k' : Key} : Functions.str.Same k k' ↔ k = k' := by
  constructor
  · rintro ⟨-, heq⟩
    exact eq_of_beq heq
  · rintro rfl
    exact Functions.str_consistent.equivalence.refl k

theorem hasEntry_iff (d : Directory) (r : Record) :
    d.HasEntry r ↔ r ∈ (live d.children.entries).map d.record := by
  rw [List.mem_map]
  constructor
  · rintro ⟨value, hhas, hr⟩
    obtain ⟨e, he, name, hkey, hvalue, hsame⟩ := (Table.has_iff_listed _ _ _).mp hhas
    have hname := str_same.mp hsame
    exact ⟨_, mem_live.mpr ⟨e, he, hname ▸ hkey, hvalue⟩, hr.symm⟩
  · rintro ⟨elm, helm, rfl⟩
    obtain ⟨e, he, hkey, hvalue⟩ := mem_live.mp helm
    refine ⟨elm.2, ?_, rfl⟩
    exact (Table.has_iff_listed _ _ _).mpr
      ⟨e, he, elm.1, hkey, hvalue, str_same.mpr rfl⟩

theorem nodup_of_distinct (hdistinct : entries.Pairwise (fun e e' => ∀ k k', e.key = some k →
    e'.key = some k' → ¬ Functions.str.Same k k')) : ((live entries).map Prod.fst).Nodup := by
  induction entries with
  | nil => exact List.nodup_nil
  | cons e entries ih =>
    rw [List.pairwise_cons] at hdistinct
    cases hkey : e.key with
    | none =>
      rw [live, List.filterMap_cons_none (by rw [hkey]; rfl)]
      exact ih hdistinct.2
    | some name =>
      rw [live, List.filterMap_cons_some (by rw [hkey]; rfl), List.map_cons, List.nodup_cons]
      refine ⟨fun hmem => ?_, ih hdistinct.2⟩
      obtain ⟨elm, helm, heq⟩ := List.mem_map.mp hmem
      obtain ⟨e', he', hkey', -⟩ := mem_live.mp helm
      exact hdistinct.1 e' he' name elm.1 hkey hkey' (str_same.mpr heq.symm)

/-- **No name is there twice**: the table is a well-placed one. -/
theorem live_nodup (d : Directory) : ((live d.children.entries).map Prod.fst).Nodup := by
  obtain ⟨s, hs, hmade⟩ := d.made
  have hloose := loose_of_reachable Functions.str_consistent hs
  rw [State.Loose, hmade] at hloose
  exact nodup_of_distinct (hloose.recounted.pending 0).distinct

/-! ## Every run -/

/-- The live entries. -/
def Directory.all (d : Directory) : List (Key × ℕ) := live d.children.entries

/-- The entries that are left. -/
def Directory.left (d : Directory) (s : State) : List (Key × ℕ) := d.all.drop s.offset

/-- The entries that a call lists. -/
def Directory.taken (d : Directory) (s : State) (c : Call) : List (Key × ℕ) :=
  fitting reclen c.bufsize (d.left s)

/-- **One call**, from an offset within the directory. -/
theorem getdirents_spec (hs : s.offset ≤ d.all.length) (c : Call) :
    tmpfsGetdirents ⟨.vdir, d⟩ c.before c.buf c.bufsize s.offset 0 =
      { status := .success
        mem := d.put c.before c.buf (d.taken s c)
        offset := s.offset + (d.taken s c).length
        bytesRead := total reclen (d.taken s c) } := by
  have hbatch : batch c.bufsize s.offset d.children.entries ⟨c.before, 0, 0⟩ = d.taken s c := rfl
  have hmin : min s.offset (live d.children.entries).length = s.offset := min_eq_left hs
  rw [tmpfsGetdirents, if_neg (not_not.mpr rfl)]
  dsimp only
  rw [list_spec d c.buf s.offset (Nat.zero_le c.bufsize), hbatch, Nat.sub_zero, hmin]
  simp only [Nat.zero_add, Nat.add_zero]

theorem names_of_mem (helm : elm ∈ d.all) : (0 : UInt8) ∉ elm.1 := by
  obtain ⟨e, he, hkey, -⟩ := mem_live.mp helm
  exact d.names e he elm.1 hkey

theorem taken_sublist (d : Directory) (s : State) (c : Call) : (d.taken s c).Sublist d.all :=
  (fitting_isPrefix ..).sublist.trans (List.drop_sublist ..)

/-- The buffer has room for the next record, if an entry is left, and none of the records that
are left and fit into the buffer is too long for a `d_reclen`. -/
def Directory.Roomy (d : Directory) (s : State) (c : Call) : Prop :=
  (∀ elm ∈ (d.left s).head?, reclen elm ≤ c.bufsize) ∧
    ∀ elm ∈ d.left s, reclen elm ≤ c.bufsize → reclen elm < 2 ^ 16

/-- What holds in every state: the records so far are those of the entries before the offset. -/
structure Directory.Inv (d : Directory) (s : State) : Prop where
  offset_le : s.offset ≤ d.all.length
  listed_eq : s.listed = (d.all.take s.offset).map d.record
  inside : s.Inside
  ended : ∀ c ∈ s.calls, c.bytesRead = 0 → s.offset = d.all.length

theorem mem_taken_le (helm : elm ∈ d.taken s c) : reclen elm ≤ c.bufsize := by
  have hone := List.single_le_sum (fun n _ => Nat.zero_le n) (reclen elm)
    (List.mem_map_of_mem (f := reclen) helm)
  exact hone.trans (total_fitting_le reclen c.bufsize (d.left s))

theorem records_eq (hroomy : d.Roomy s c) :
    Done.records ⟨c, d.put c.before c.buf (d.taken s c), total reclen (d.taken s c)⟩ =
      (d.taken s c).map d.record := by
  have hfit : c.buf + total reclen (d.taken s c) ≤ 2 ^ 64 := by
    have htotal := total_fitting_le reclen c.bufsize (d.left s)
    have hbuf := c.fits
    change total reclen (d.taken s c) ≤ c.bufsize at htotal
    omega
  refine readRecords_eq (put_holds hfit) (fun elm helm => ?_) (fun elm helm => ?_) ?_
  · exact hroomy.2 elm ((fitting_isPrefix ..).subset helm) (mem_taken_le helm)
  · exact names_of_mem ((taken_sublist d s c).subset helm)
  · rw [total, ← List.length_map (f := reclen)]
    refine List.length_le_sum_of_one_le _ (fun n hn => ?_)
    obtain ⟨elm, -, rfl⟩ := List.mem_map.mp hn
    exact reclen_pos elm

theorem next_eq (hs : s.offset ≤ d.all.length) (c : Call) : d.next s c =
    { offset := s.offset + (d.taken s c).length
      calls := s.calls ++
        [⟨c, d.put c.before c.buf (d.taken s c), total reclen (d.taken s c)⟩] } := by
  rw [Directory.next, getdirents_spec hs c]

theorem next_offset_le (hs : s.offset ≤ d.all.length) (c : Call) :
    s.offset + (d.taken s c).length ≤ d.all.length := by
  have hle := (fitting_isPrefix reclen c.bufsize (d.left s)).length_le
  have hleft : (d.left s).length = d.all.length - s.offset := List.length_drop
  change (d.taken s c).length ≤ (d.left s).length at hle
  omega

theorem taken_frame (d : Directory) (s : State) (c : Call)
    (ha : a < c.buf ∨ c.buf + c.bufsize ≤ a) :
    d.put c.before c.buf (d.taken s c) a = c.before a := by
  have htotal : total reclen (d.taken s c) ≤ c.bufsize := total_fitting_le ..
  have hbuf := c.fits
  exact put_frame (by omega) (by omega)

theorem end_of_taken_nil (hs : s.offset ≤ d.all.length) (hroomy : d.Roomy s c)
    (hnil : d.taken s c = []) : s.offset = d.all.length := by
  have hnone : d.left s = [] := by
    cases hleft : d.left s with
    | nil => rfl
    | cons elm elms =>
      have hroom := hroomy.1 elm (by rw [hleft]; rfl)
      have hfull := fitting_eq_nil_iff.mp hnil elm (by rw [hleft]; rfl)
      omega
  have hlength := List.drop_eq_nil_iff.mp hnone
  omega

theorem State.Inside.append {x : Done} {offset' : ℕ} (h : s.Inside)
    (hx : ∀ a, a < x.call.buf ∨ x.call.buf + x.call.bufsize ≤ a → x.after a = x.call.before a) :
    State.Inside ⟨offset', s.calls ++ [x]⟩ := by
  intro c hc a ha
  rcases List.mem_append.mp hc with hold | hnew
  · exact h c hold a ha
  · rw [List.mem_singleton] at hnew
    subst hnew
    exact hx a ha

theorem Directory.Inv.step (h : d.Inv s) (hroomy : d.Roomy s c) : d.Inv (d.next s c) := by
  rw [next_eq h.offset_le c]
  refine ⟨next_offset_le h.offset_le c, ?_, h.inside.append (fun a => taken_frame d s c),
    fun c' hc' hzero => ?_⟩
  · have htake := take_append_fitting reclen c.bufsize s.offset d.all
    rw [State.listed, List.flatMap_append, List.flatMap_singleton, records_eq hroomy]
    change s.listed ++ _ = _
    rw [h.listed_eq, ← List.map_append]
    exact congrArg (List.map d.record) htake
  · rcases List.mem_append.mp hc' with hold | hnew
    · have hend := h.ended c' hold hzero
      have hnext := next_offset_le h.offset_le c
      dsimp only
      omega
    · rw [List.mem_singleton] at hnew
      subst hnew
      have hnil := eq_nil_of_total reclen_pos hzero
      rw [hnil]
      exact end_of_taken_nil h.offset_le hroomy hnil

theorem Directory.Inv.init (d : Directory) : d.Inv ⟨0, []⟩ where
  offset_le := Nat.zero_le _
  listed_eq := rfl
  inside := fun _ h => absurd h List.not_mem_nil
  ended := fun _ h => absurd h List.not_mem_nil

theorem records_nodup (d : Directory) : ((d.all.map d.record).map Record.name).Nodup := by
  rw [List.map_map]
  exact live_nodup d

theorem Directory.Inv.complete (h : d.Inv s) : d.Complete s where
  inside := h.inside
  real := fun r hr => by
    rw [h.listed_eq] at hr
    exact (hasEntry_iff d r).mpr (((List.take_sublist ..).map d.record).subset hr)
  once := by
    rw [h.listed_eq]
    exact (((List.take_sublist ..).map d.record).map Record.name).nodup (records_nodup d)
  ended := fun c hc hzero r hr => by
    have hall : s.listed = d.all.map d.record := by
      rw [h.listed_eq, h.ended c hc hzero, List.take_length]
    rw [hall]
    exact List.count_eq_one_of_mem (records_nodup d).of_map ((hasEntry_iff d r).mp hr)

/-- **Listings are complete**, in every run of calls whose buffers have room for the next record,
among records shorter than `2 ^ 16` bytes. -/
theorem listing_complete (d : Directory) {s : State} (h : d.system.ReachableUnder d.Roomy s) :
    d.Complete s := by
  have hinv : d.Inv s := by
    refine h.invariant ?_ ?_
    · rintro _ rfl
      exact Directory.Inv.init d
    · intro s c s' hs hroomy hstep
      obtain rfl := Option.some.inj hstep
      exact hs.step hroomy
  exact hinv.complete

/-- **Whatever the buffers**, the offset stays within the directory, and no call writes past its
buffer. -/
theorem inside_of_reachable (d : Directory) {s : State} (h : d.system.Reachable s) :
    s.offset ≤ d.all.length ∧ s.Inside := by
  refine @TransitionSystem.Reachable.invariant _ _ _
    (fun s => s.offset ≤ d.all.length ∧ s.Inside) ?_ ?_ s h
  · rintro _ rfl
    exact ⟨Nat.zero_le _, fun _ h => absurd h List.not_mem_nil⟩
  · rintro s c s' ⟨hs, hinside⟩ hstep
    obtain rfl := Option.some.inj hstep
    rw [next_eq hs c]
    exact ⟨next_offset_le hs c, hinside.append (fun a => taken_frame d s c)⟩

/-- **A successful `sys_getdents` is a step**: it goes on from the offset of the file, and the file
keeps the new one. -/
theorem sysGetdents_ok {file file' : File} {n : ℕ} (hs : s.offset = file.offset)
    (h : sysGetdents (some file) c.before c.buf c.bufsize = (.ok n, some file', mem)) :
    file.vnode.dir.next s c = ⟨file'.offset, s.calls ++ [⟨c, mem, n⟩]⟩ := by
  rw [sysGetdents] at h
  by_cases hread : file.read = false
  · rw [if_pos hread] at h
    cases h
  · by_cases htype : file.vnode.type ≠ .vdir
    · rw [if_neg hread, if_pos htype] at h
      cases h
    · have hvnode : file.vnode = ⟨.vdir, file.vnode.dir⟩ := by
        rw [← not_not.mp htype]
      rw [if_neg hread, if_neg htype, hvnode, ← hs] at h
      cases h
      rfl

/-! ## A directory with itself -/

/-- The table of a new directory, before and after `.` is set. -/
def newTable : HashTable.State := ⟨Table.init, fun _ => none⟩

def setDot : HashTable.Event := ⟨.set [46] 7 true, []⟩

def dotTable : Table :=
  (((system Functions.str).step newTable setDot).map State.table).getD Table.init

theorem dotTable_live : live dotTable.entries = [([46], 7)] := by decide +kernel

theorem dotTable_made :
    ∃ s : HashTable.State, (system Functions.str).Reachable s ∧ s.table = dotTable := by
  have hsome : ((system Functions.str).step newTable setDot).isSome = true := by decide +kernel
  obtain ⟨s, hs⟩ := Option.isSome_iff_exists.mp hsome
  refine ⟨s, .step (.init rfl) trivial hs, ?_⟩
  rw [dotTable, hs]
  rfl

/-- A new directory, whose inode is 1. -/
def dotDirectory : Directory where
  children := dotTable
  node := fun _ => ⟨1, .vdir⟩
  made := dotTable_made
  names := by
    intro entry hentry name hkey
    have hmem : (name, entry.value) ∈ live dotTable.entries :=
      mem_live.mpr ⟨entry, hentry, hkey, rfl⟩
    rw [dotTable_live, List.mem_singleton] at hmem
    rw [(Prod.mk.inj hmem).1]
    decide
  inode_lt := fun _ => by norm_num

theorem dotDirectory_all : dotDirectory.all = [([46], 7)] := dotTable_live

/-- A call with a buffer of so many bytes. -/
def callWith (bufsize : ℕ) (h : bufsize ≤ 2 ^ 64) : Call where
  buf := 0
  bufsize := bufsize
  before := fun _ => 0
  fits := by omega

/-- Two calls with buffers of 24 bytes: the second one stores nothing, and `.` is listed. -/
theorem listing_complete_dot : ∃ s : State,
    dotDirectory.system.ReachableUnder dotDirectory.Roomy s ∧ s.calls.map Done.bytesRead = [24, 0] ∧
      dotDirectory.Complete s := by
  have hroomy : ∀ s, dotDirectory.Roomy s (callWith 24 (by norm_num)) := by
    intro s
    have hmem : ∀ elm ∈ dotDirectory.left s, reclen elm = 24 := by
      intro elm helm
      have hall := List.mem_of_mem_drop helm
      rw [dotDirectory_all, List.mem_singleton] at hall
      rw [hall]
      rfl
    refine ⟨fun elm helm => ?_, fun elm helm _ => ?_⟩
    · exact (hmem elm (List.mem_of_mem_head? helm)).le
    · rw [hmem elm helm]
      norm_num
  have hreach : dotDirectory.system.ReachableUnder dotDirectory.Roomy _ :=
    .step (.step (.init rfl) (hroomy _) rfl) (hroomy _) rfl
  exact ⟨_, hreach, by decide +kernel, listing_complete dotDirectory hreach⟩

theorem inside_of_reachable_dot : ∃ s : State, dotDirectory.system.Reachable s ∧
    s.calls.length = 1 ∧ s.Inside := by
  have hreach : dotDirectory.system.Reachable _ :=
    .step (.init rfl) (e := callWith 16 (by norm_num)) trivial rfl
  exact ⟨_, hreach, rfl, (inside_of_reachable dotDirectory hreach).2⟩

/-- A call with a buffer of 16 bytes stores nothing, and `.` is not listed. -/
theorem listing_incomplete :
    ¬ ∀ (d : Directory) (s : State), d.system.Reachable s → d.Complete s := by
  intro hall
  have hreach : dotDirectory.system.Reachable _ :=
    .step (.init rfl) (e := callWith 16 (by norm_num)) trivial rfl
  have hcomplete := hall dotDirectory _ hreach
  have hentry : dotDirectory.HasEntry (dotDirectory.record ([46], 7)) := by
    rw [hasEntry_iff]
    exact List.mem_map_of_mem (dotTable_live ▸ List.mem_singleton_self _)
  have hlisted := hcomplete.ended _ (List.mem_singleton_self _) (by decide +kernel) _ hentry
  revert hlisted
  decide +kernel

end Getdents
