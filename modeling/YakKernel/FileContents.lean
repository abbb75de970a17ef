/-
# The contents of regular files

`vfs_vobj_write` and `vfs_vobj_read` (`fs/generic.c`) move bytes between a buffer and the pages of
a vnode's object, which `vm_lookuppage` (`vm/object.c`) makes on first use through the anonymous
pager (`vm/aobj.c`).  A call refines a byte array with a size, unless its length is 0 or the end of
a read below the file size wraps around.  Allocating a page succeeds.
-/
import YakKernel.PagedBytes
import YakKernel.Status
import YakKernel.Vfs

namespace VfsVobj

open PagedBytes

/-! ## The code -/

/-- `PAGE_SIZE`. -/
def pageSize : ℕ := 4096

theorem pageSize_pos : 0 < pageSize := by decide

/-- Addition of 64-bit words. -/
def wadd (a b : ℕ) : ℕ := (a + b) % 2 ^ 64

/-- A page's bytes, from its first on. -/
abbrev Page := ℕ → UInt8

/-- `struct vm_object` of the anonymous pager: the tree of its pages by offset. -/
structure VmObject where
  memq : ℕ → Option Page

/-- The fields of `struct vnode` that the transfers use. -/
structure Vnode where
  type : Vfs.VType
  vobj : Option VmObject
  filesize : ℕ

/-- `anon_pager_get`: a page of zeros. -/
def anonPagerGet : Page := fun _ => 0

/-- `vm_lookuppage`; `lookupOnly` is the flag `LOOKUP_ONLY`. -/
def vmLookuppage (obj : VmObject) (offset : ℕ) (lookupOnly : Bool) :
    Except Status Page × VmObject :=
  match obj.memq offset with
  | some pg => (.ok pg, obj)
  | none =>
    if lookupOnly then (.error .noent, obj)
    else (.ok anonPagerGet, { memq := Function.update obj.memq offset (some anonPagerGet) })

/-- The loop of `vfs_vobj_write`.  The sums stay below `endOff`, so they do not wrap. -/
def writeLoop (vobj : VmObject) (startOff endOff : ℕ) (src : ℕ → UInt8) (written : ℕ) :
    Status × ℕ × VmObject :=
  if _h : startOff < endOff then
    let pageoff := pageStart pageSize startOff
    let pageOffset := startOff - pageoff
    match vmLookuppage vobj pageoff false with
    | (.error res, vobj) => (res, written, vobj)
    | (.ok pg, vobj) =>
      writeLoop
        { memq := Function.update vobj.memq pageoff
            (some (patch pg pageOffset (chunk pageSize startOff endOff) src)) }
        (startOff + chunk pageSize startOff endOff) endOff
        (fun i => src (chunk pageSize startOff endOff + i))
        (written + chunk pageSize startOff endOff)
  else (.success, written, vobj)
termination_by endOff - startOff
decreasing_by
  have hpos := chunk_pos pageSize_pos _h
  omega

/-- `vfs_vobj_write`; `writtenp` tells whether the pointer is there.  With the status, the count
stored through the pointer; `none` when the assertion fails. -/
def vfsVobjWrite (vn : Vnode) (offset : ℕ) (buf : ℕ → UInt8) (length : ℕ) (writtenp : Bool) :
    Option (Status × Option ℕ × Vnode) :=
  if !writtenp then some (.invalidArgs, none, vn)
  else if vn.type ≠ .vreg then some (.notSupported, none, vn)
  else match vn.vobj with
    | none => none
    | some vobj =>
      if length = 0 then some (.success, none, vn)
      else
        let endOff := wadd offset length
        let filesize := if endOff > vn.filesize then endOff else vn.filesize
        match writeLoop vobj offset endOff buf 0 with
        | (res, written, vobj) =>
          let vn := { vn with filesize := filesize, vobj := some vobj }
          if res.isErr then some (res, none, vn) else some (.success, some written, vn)

/-- The loop of `vfs_vobj_read`; `dst` collects what is copied. -/
def readLoop (obj : VmObject) (startOff endOff : ℕ) (dst : List UInt8) (read : ℕ) :
    Status × ℕ × List UInt8 × VmObject :=
  if _h : startOff < endOff then
    let pageoff := pageStart pageSize startOff
    let pageOffset := startOff - pageoff
    match vmLookuppage obj pageoff false with
    | (.error res, obj) => (res, read, dst, obj)
    | (.ok pg, obj) =>
      readLoop obj (startOff + chunk pageSize startOff endOff) endOff
        (dst ++ cells pg pageOffset (chunk pageSize startOff endOff))
        (read + chunk pageSize startOff endOff)
  else (.success, read, dst, obj)
termination_by endOff - startOff
decreasing_by
  have hpos := chunk_pos pageSize_pos _h
  omega

/-- `vfs_vobj_read`: the status, the count stored through `readp`, the bytes copied. -/
def vfsVobjRead (vn : Vnode) (offset length : ℕ) (readp : Bool) :
    Option (Status × Option ℕ × List UInt8 × Vnode) :=
  if !readp then some (.invalidArgs, none, [], vn)
  else if vn.type ≠ .vreg then some (.notSupported, none, [], vn)
  else match vn.vobj with
    | none => none
    | some obj =>
      if length = 0 then some (.success, none, [], vn)
      else if offset ≥ vn.filesize then some (.eof, some 0, [], vn)
      else
        let length := if wadd offset length > vn.filesize then vn.filesize - offset else length
        match readLoop obj offset (wadd offset length) [] 0 with
        | (res, read, dst, obj) =>
          let vn := { vn with vobj := some obj }
          if res.isErr then some (res, none, dst, vn) else some (.success, some read, dst, vn)

/-! ## One transfer -/

/-- The bytes of an object. -/
def VmObject.bytes (obj : VmObject) : ℕ → UInt8 := cell 0 pageSize obj.memq

/-- A lookup gives the page, made of zeros when it is new, and changes no byte. -/
theorem vmLookuppage_spec (obj : VmObject) (offset : ℕ) :
    ∃ obj' : VmObject, vmLookuppage obj offset false = (.ok (pageAt 0 obj.memq offset), obj') ∧
      obj'.bytes = obj.bytes ∧
      ∀ pg, Function.update obj'.memq offset pg = Function.update obj.memq offset pg := by
  cases hpg : obj.memq offset with
  | some pg =>
    refine ⟨obj, ?_, rfl, fun _ => rfl⟩
    rw [vmLookuppage, hpg, pageAt, hpg]
    rfl
  | none =>
    refine ⟨{ memq := Function.update obj.memq offset (some anonPagerGet) }, ?_, ?_, ?_⟩
    · rw [vmLookuppage, hpg, pageAt, hpg]
      rfl
    · exact cell_insert_blank pageSize hpg
    · intro pg
      exact Function.update_idem _ _ _

/-- **The write loop** stores the bytes of the source over the range. -/
theorem writeLoop_spec (n : ℕ) : ∀ (vobj : VmObject) (startOff endOff : ℕ) (src : ℕ → UInt8)
    (written : ℕ), endOff - startOff = n →
    ∃ vobj' : VmObject, writeLoop vobj startOff endOff src written = (.success, written + n, vobj') ∧
      vobj'.bytes = patch vobj.bytes startOff n src := by
  induction n using Nat.strong_induction_on with
  | _ n ih =>
    intro vobj startOff endOff src written hn
    by_cases h : startOff < endOff
    · obtain ⟨obj, hlookup, hbytes, hupdate⟩ :=
        vmLookuppage_spec vobj (pageStart pageSize startOff)
      have hpos := chunk_pos pageSize_pos h
      have hle := chunk_le pageSize startOff endOff
      obtain ⟨vobj', hloop, hbytes'⟩ := ih (endOff - (startOff + chunk pageSize startOff endOff))
        (by omega)
        { memq := Function.update vobj.memq (pageStart pageSize startOff)
            (some (patch (pageAt 0 vobj.memq (pageStart pageSize startOff))
              (startOff % pageSize) (chunk pageSize startOff endOff) src)) }
        (startOff + chunk pageSize startOff endOff) endOff
        (fun i => src (chunk pageSize startOff endOff + i))
        (written + chunk pageSize startOff endOff) rfl
      refine ⟨vobj', ?_, ?_⟩
      · rw [writeLoop, dif_pos h]
        simp only [hlookup, hupdate, sub_pageStart]
        rw [hloop]
        congr 2
        omega
      · rw [hbytes', VmObject.bytes, cell_patch pageSize_pos, patch_patch_next]
        congr 1
        omega
    · refine ⟨vobj, ?_, ?_⟩
      · rw [writeLoop, dif_neg h]
        congr 2
        omega
      · rw [show n = 0 by omega, patch_zero]

/-- **The read loop** copies the bytes of the range. -/
theorem readLoop_spec (n : ℕ) : ∀ (obj : VmObject) (startOff endOff : ℕ) (dst : List UInt8)
    (read : ℕ), endOff - startOff = n →
    ∃ obj' : VmObject, readLoop obj startOff endOff dst read =
        (.success, read + n, dst ++ cells obj.bytes startOff n, obj') ∧
      obj'.bytes = obj.bytes := by
  induction n using Nat.strong_induction_on with
  | _ n ih =>
    intro obj startOff endOff dst read hn
    by_cases h : startOff < endOff
    · obtain ⟨obj₁, hlookup, hbytes, -⟩ := vmLookuppage_spec obj (pageStart pageSize startOff)
      have hpos := chunk_pos pageSize_pos h
      have hle := chunk_le pageSize startOff endOff
      obtain ⟨obj', hloop, hbytes'⟩ := ih (endOff - (startOff + chunk pageSize startOff endOff))
        (by omega) obj₁
        (startOff + chunk pageSize startOff endOff) endOff
        (dst ++ cells obj.bytes startOff (chunk pageSize startOff endOff))
        (read + chunk pageSize startOff endOff) rfl
      refine ⟨obj', ?_, hbytes'.trans hbytes⟩
      rw [readLoop, dif_pos h]
      simp only [hlookup, sub_pageStart]
      rw [cells_chunk pageSize_pos]
      rw [VmObject.bytes] at hloop
      rw [hloop, hbytes, VmObject.bytes, List.append_assoc, cells_append]
      congr 2
      · omega
      · congr 2
        congr 1
        omega
    · refine ⟨obj, ?_, rfl⟩
      rw [readLoop, dif_neg h, show n = 0 by omega]
      simp [cells]

/-! ## Sequences of calls -/

/-- A call on a vnode, with the pointers of its buffer and of its count given. -/
inductive Call where
  | write (offset : ℕ) (buf : ℕ → UInt8) (length : ℕ)
  | read (offset length : ℕ)

/-- What a call gives back: its status, the stored count and the bytes copied out. -/
structure Reply where
  status : Status
  count : Option ℕ
  bytes : List UInt8

/-- One call on a vnode. -/
def Vnode.call (vn : Vnode) : Call → Option (Reply × Vnode)
  | .write offset buf length =>
    (vfsVobjWrite vn offset buf length true).map (fun (status, count, vn) =>
      ({ status := status, count := count, bytes := [] }, vn))
  | .read offset length =>
    (vfsVobjRead vn offset length true).map (fun (status, count, bytes, vn) =>
      ({ status := status, count := count, bytes := bytes }, vn))

/-- A new regular vnode of `tmpfs_init_node`. -/
def newVnode : Vnode := { type := .vreg, vobj := some { memq := fun _ => none }, filesize := 0 }

/-- The vnode after a sequence of calls, the latest first. -/
def after : List Call → Option Vnode
  | [] => some newVnode
  | c :: past => (after past).bind (fun vn => (vn.call c).map Prod.snd)

/-- The calls in range: words, and writes whose end does not wrap. -/
def Call.InRange : Call → Prop
  | .write offset _ length => offset + length < 2 ^ 64
  | .read offset length => offset < 2 ^ 64 ∧ length < 2 ^ 64

/-! ## The byte array -/

/-- The last byte written at a position, 0 if there is none. -/
def lastByte : List Call → ℕ → UInt8
  | [] => fun _ => 0
  | .write offset buf length :: past => patch (lastByte past) offset length buf
  | .read _ _ :: past => lastByte past

/-- The largest end of a write. -/
def maxEnd : List Call → ℕ
  | [] => 0
  | .write offset _ length :: past => max (offset + length) (maxEnd past)
  | .read _ _ :: past => maxEnd past

/-- What a call on the byte array stores as its count. -/
def Call.count (past : List Call) : Call → ℕ
  | .write _ _ length => length
  | .read offset length => min length (maxEnd past - offset)

/-- The bytes that a call on the byte array gives. -/
def Call.bytes (past : List Call) : Call → List UInt8
  | .write _ _ _ => []
  | .read offset length => cells (lastByte past) offset (min length (maxEnd past - offset))

/-- The call `c` after `past` does what the byte array does. -/
def Refines (past : List Call) (c : Call) : Prop :=
  ∃ vn reply vn', after past = some vn ∧ vn.call c = some (reply, vn') ∧
    reply.count = some (c.count past) ∧ reply.bytes = c.bytes past ∧
    vn'.filesize = maxEnd (c :: past)

/-- The length is not 0, and the end of a read below the file size does not wrap. -/
def Handled (past : List Call) : Call → Prop
  | .write _ _ length => length ≠ 0
  | .read offset length => length ≠ 0 ∧ (offset < maxEnd past → offset + length < 2 ^ 64)

/-- The vnode holds the byte array of a sequence of calls. -/
structure Holds (vn : Vnode) (past : List Call) : Prop where
  type_eq : vn.type = .vreg
  exists_vobj : ∃ vobj, vn.vobj = some vobj ∧ vobj.bytes = lastByte past
  filesize_eq : vn.filesize = maxEnd past
  filesize_lt : vn.filesize < 2 ^ 64

theorem holds_newVnode : Holds newVnode [] where
  type_eq := rfl
  exists_vobj := ⟨_, rfl, rfl⟩
  filesize_eq := rfl
  filesize_lt := by decide

variable {vn : Vnode} {past : List Call}

theorem Holds.write (h : Holds vn past) (offset length : ℕ) (buf : ℕ → UInt8)
    (hrange : offset + length < 2 ^ 64) (hlength : length ≠ 0) :
    ∃ vn', vfsVobjWrite vn offset buf length true = some (.success, some length, vn') ∧
      Holds vn' (.write offset buf length :: past) := by
  obtain ⟨vobj, hvobj, hbytes⟩ := h.exists_vobj
  have hend : wadd offset length = offset + length := Nat.mod_eq_of_lt hrange
  obtain ⟨vobj', hloop, hbytes'⟩ :=
    writeLoop_spec length vobj offset (offset + length) buf 0 (by omega)
  have hsize : (if offset + length > vn.filesize then offset + length else vn.filesize) =
      max (offset + length) (maxEnd past) := by
    rw [← h.filesize_eq]
    split
    · omega
    · omega
  refine ⟨{ vn with
      filesize := max (offset + length) (maxEnd past), vobj := some vobj' }, ?_, ?_⟩
  · simp [vfsVobjWrite, h.type_eq, hvobj, hlength, hend, hloop, hsize]
  · have hlt := h.filesize_lt
    have heq := h.filesize_eq
    refine ⟨h.type_eq, ⟨vobj', rfl, ?_⟩, rfl, ?_⟩
    · rw [hbytes', hbytes]
      rfl
    · show max (offset + length) (maxEnd past) < 2 ^ 64
      omega

theorem Holds.read_eof (h : Holds vn past) {offset length : ℕ} (hlength : length ≠ 0)
    (hend : maxEnd past ≤ offset) :
    vfsVobjRead vn offset length true = some (.eof, some 0, [], vn) := by
  obtain ⟨vobj, hvobj, -⟩ := h.exists_vobj
  have hge : vn.filesize ≤ offset := h.filesize_eq ▸ hend
  simp [vfsVobjRead, h.type_eq, hvobj, hlength, hge]

theorem Holds.read (h : Holds vn past) {offset length : ℕ} (hlength : length ≠ 0)
    (hlt : offset < maxEnd past) (hrange : offset + length < 2 ^ 64) :
    ∃ vn', vfsVobjRead vn offset length true =
        some (.success, some (min length (maxEnd past - offset)),
          cells (lastByte past) offset (min length (maxEnd past - offset)), vn') ∧
      Holds vn' (.read offset length :: past) := by
  obtain ⟨vobj, hvobj, hbytes⟩ := h.exists_vobj
  have hsize := h.filesize_eq
  have hword := h.filesize_lt
  have hwadd : wadd offset length = offset + length := Nat.mod_eq_of_lt hrange
  have hclamp : (if offset + length > vn.filesize then vn.filesize - offset else length) =
      min length (maxEnd past - offset) := by
    split
    · omega
    · omega
  have hend : wadd offset (min length (maxEnd past - offset)) =
      offset + min length (maxEnd past - offset) := Nat.mod_eq_of_lt (by omega)
  obtain ⟨vobj', hloop, hbytes'⟩ := readLoop_spec (min length (maxEnd past - offset)) vobj offset
    (offset + min length (maxEnd past - offset)) [] 0 (by omega)
  refine ⟨{ vn with vobj := some vobj' }, ?_, ⟨h.type_eq, ⟨vobj', rfl, ?_⟩, hsize, hword⟩⟩
  · have hnot : ¬ vn.filesize ≤ offset := by omega
    simp [vfsVobjRead, h.type_eq, hvobj, hlength, hnot, hwadd, hclamp, hend, hloop, hbytes]
  · exact hbytes'.trans hbytes

theorem Holds.read_wraps (h : Holds vn past) {offset length : ℕ} (hword : length < 2 ^ 64)
    (hlt : offset < maxEnd past) (hwraps : 2 ^ 64 ≤ offset + length) :
    ∃ vn', vfsVobjRead vn offset length true = some (.success, some 0, [], vn') := by
  obtain ⟨vobj, hvobj, -⟩ := h.exists_vobj
  have hsize := h.filesize_eq
  have hmax := h.filesize_lt
  have hwadd : wadd offset length = offset + length - 2 ^ 64 := by
    rw [wadd, Nat.mod_eq_sub_mod hwraps, Nat.mod_eq_of_lt (by omega)]
  have hnot : ¬ vn.filesize ≤ offset := by omega
  have hclamp : (if wadd offset length > vn.filesize then vn.filesize - offset else length) =
      length := if_neg (by omega)
  have hloop : readLoop vobj offset (wadd offset length) [] 0 = (.success, 0, [], vobj) := by
    rw [readLoop, dif_neg (by omega)]
  have hlength : length ≠ 0 := by omega
  refine ⟨{ vn with vobj := some vobj }, ?_⟩
  simp only [vfsVobjRead, h.type_eq, hvobj, hlength, hnot, hclamp, hloop]
  simp

theorem Holds.call_empty (h : Holds vn past) (offset : ℕ) (buf : ℕ → UInt8) :
    vfsVobjWrite vn offset buf 0 true = some (.success, none, vn) ∧
      vfsVobjRead vn offset 0 true = some (.success, none, [], vn) := by
  obtain ⟨vobj, hvobj, -⟩ := h.exists_vobj
  constructor
  · simp [vfsVobjWrite, h.type_eq, hvobj]
  · simp [vfsVobjRead, h.type_eq, hvobj]

/-- A call that is handled refines the byte array, and the vnode goes on holding it. -/
theorem Holds.call (h : Holds vn past) {c : Call} (hrange : c.InRange) (hc : Handled past c) :
    ∃ reply vn', vn.call c = some (reply, vn') ∧ reply.count = some (c.count past) ∧
      reply.bytes = c.bytes past ∧ Holds vn' (c :: past) := by
  cases c with
  | write offset buf length =>
    obtain ⟨vn', hcall, hholds⟩ := h.write offset length buf hrange hc
    exact ⟨_, vn', by rw [Vnode.call, hcall]; rfl, rfl, rfl, hholds⟩
  | read offset length =>
    by_cases hlt : offset < maxEnd past
    · obtain ⟨vn', hcall, hholds⟩ := h.read hc.1 hlt (hc.2 hlt)
      exact ⟨_, vn', by rw [Vnode.call, hcall]; rfl, rfl, rfl, hholds⟩
    · have hcall := h.read_eof hc.1 (Nat.le_of_not_lt hlt)
      refine ⟨_, vn, by rw [Vnode.call, hcall]; rfl, ?_, ?_, ?_⟩
      · rw [Call.count, Nat.sub_eq_zero_of_le (Nat.le_of_not_lt hlt), Nat.min_zero]
      · rw [Call.bytes, Nat.sub_eq_zero_of_le (Nat.le_of_not_lt hlt), Nat.min_zero]
        rfl
      · exact ⟨h.type_eq, h.exists_vobj, h.filesize_eq, h.filesize_lt⟩

theorem Holds.handled (h : Holds vn past) {c : Call} (hrange : c.InRange) {reply : Reply}
    {vn' : Vnode} (hcall : vn.call c = some (reply, vn'))
    (hcount : reply.count = some (c.count past)) : Handled past c := by
  cases c with
  | write offset buf length =>
    rintro rfl
    rw [Vnode.call, (h.call_empty offset buf).1] at hcall
    simp only [Option.map_some, Option.some.injEq, Prod.mk.injEq] at hcall
    rw [← hcall.1] at hcount
    simp at hcount
  | read offset length =>
    constructor
    · rintro rfl
      rw [Vnode.call, (h.call_empty offset (fun _ => 0)).2] at hcall
      simp only [Option.map_some, Option.some.injEq, Prod.mk.injEq] at hcall
      rw [← hcall.1] at hcount
      simp at hcount
    · intro hlt
      by_contra hwraps
      have hle : 2 ^ 64 ≤ offset + length := Nat.le_of_not_lt hwraps
      have hsize := h.filesize_eq
      have hmax := h.filesize_lt
      obtain ⟨vn₁, hread⟩ := h.read_wraps hrange.2 hlt hle
      rw [Vnode.call, hread] at hcall
      simp only [Option.map_some, Option.some.injEq, Prod.mk.injEq] at hcall
      rw [← hcall.1] at hcount
      simp only [Option.some.injEq, Call.count] at hcount
      omega

theorem holds_after : ∀ {calls : List Call}, (∀ c ∈ calls, c.InRange) →
    (∀ c past, c :: past <:+ calls → Handled past c) →
    ∃ vn, after calls = some vn ∧ Holds vn calls := by
  intro calls
  induction calls with
  | nil => exact fun _ _ => ⟨newVnode, rfl, holds_newVnode⟩
  | cons c past ih =>
    intro hrange hhandled
    obtain ⟨vn, hafter, hholds⟩ := ih (fun d hd => hrange d (List.mem_cons_of_mem _ hd))
      (fun d rest hd => hhandled d rest (hd.trans (List.suffix_cons c past)))
    obtain ⟨reply, vn', hcall, -, -, hholds'⟩ := hholds.call
      (hrange c List.mem_cons_self) (hhandled c past (List.suffix_refl _))
    exact ⟨vn', by rw [after, hafter, Option.bind_some, hcall]; rfl, hholds'⟩

/-- **Contents of a file.**  All calls of a sequence do what the byte array does if and only if
each has a length other than 0 and no read below the file size has an end that wraps. -/
theorem refines_iff_handled (calls : List Call) (hrange : ∀ c ∈ calls, c.InRange) :
    (∀ c past, c :: past <:+ calls → Refines past c) ↔
      ∀ c past, c :: past <:+ calls → Handled past c := by
  constructor
  · intro hrefines
    induction calls with
    | nil =>
      intro c past hsuffix
      simp at hsuffix
    | cons d rest ih =>
      have hrest := ih (fun e he => hrange e (List.mem_cons_of_mem _ he))
        (fun e past he => hrefines e past (he.trans (List.suffix_cons d rest)))
      intro c past hsuffix
      rcases List.suffix_cons_iff.1 hsuffix with heq | hlater
      · obtain ⟨rfl, rfl⟩ : c = d ∧ past = rest := by simpa using heq
        obtain ⟨vn, hafter, hholds⟩ :=
          holds_after (fun e he => hrange e (List.mem_cons_of_mem _ he)) hrest
        obtain ⟨vn₁, reply, vn', hafter₁, hcall, hcount, -, -⟩ :=
          hrefines c past (List.suffix_refl _)
        obtain rfl : vn = vn₁ := Option.some.inj (hafter.symm.trans hafter₁)
        exact hholds.handled (hrange c List.mem_cons_self) hcall hcount
      · exact hrest c past hlater
  · intro hhandled c past hsuffix
    obtain ⟨vn, hafter, hholds⟩ := holds_after
      (fun e he => hrange e (hsuffix.subset (List.mem_cons_of_mem _ he)))
      (fun e rest he => hhandled e rest ((he.trans (List.suffix_cons c past)).trans hsuffix))
    obtain ⟨reply, vn', hcall, hcount, hbytes, hholds'⟩ := hholds.call
      (hrange c (hsuffix.subset List.mem_cons_self)) (hhandled c past hsuffix)
    exact ⟨vn, reply, vn', hafter, hcall, hcount, hbytes, hholds'.filesize_eq⟩

/-- Two bytes over a page border are written and read back. -/
theorem refines_iff_handled_two :
    (∀ c ∈ [Call.read 4095 2, .write 4095 (fun _ => 7) 2], c.InRange) ∧
      ((∀ c past, c :: past <:+ [Call.read 4095 2, .write 4095 (fun _ => 7) 2] →
          Refines past c) ↔
        ∀ c past, c :: past <:+ [Call.read 4095 2, .write 4095 (fun _ => 7) 2] →
          Handled past c) := by
  have hrange : ∀ c ∈ [Call.read 4095 2, .write 4095 (fun _ => 7) 2], c.InRange := by
    simp [Call.InRange]
  exact ⟨hrange, refines_iff_handled _ hrange⟩

/-- An empty write on a new vnode stores no count, and a read of all but one of the 2^64 bytes from
position 1 of a file of two bytes transfers none. -/
theorem count_missing_and_bytes_missing :
    (Call.write 0 (fun _ => 7) 0).InRange ∧ ¬ Refines [] (.write 0 (fun _ => 7) 0) ∧
    (∀ c ∈ [Call.read 1 (2 ^ 64 - 1), .write 0 (fun _ => 7) 2], c.InRange) ∧
      ¬ Refines [.write 0 (fun _ => 7) 2] (.read 1 (2 ^ 64 - 1)) := by
  have hwrite : Holds newVnode [] := holds_newVnode
  obtain ⟨vn₁, hcall₁, hholds₁⟩ := hwrite.write 0 2 (fun _ => (7 : UInt8))
    (by decide) (by decide)
  have hafter₁ : after [.write 0 (fun _ => 7) 2] = some vn₁ := by
    rw [after, after, Option.bind_some, Vnode.call, hcall₁]
    rfl
  refine ⟨by simp [Call.InRange], ?_, by simp [Call.InRange], ?_⟩
  · rintro ⟨vn, reply, vn', hafter, hcall, hcount, -⟩
    obtain rfl : newVnode = vn := Option.some.inj hafter
    exact hwrite.handled (by simp [Call.InRange]) hcall hcount rfl
  · rintro ⟨vn, reply, vn', hafter, hcall, hcount, -⟩
    obtain rfl : vn₁ = vn := Option.some.inj (hafter₁.symm.trans hafter)
    have hhandled := hholds₁.handled (by simp [Call.InRange]) hcall hcount
    have hlt := hhandled.2 (by decide)
    omega

end VfsVobj
