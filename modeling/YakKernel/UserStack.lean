/-
# The first stack of a program

The part of `launch_elf` in `kernel/core/launch.c` that fills the user stack: the strings, then the
words, each below what is there already.  What a program finds at its stack pointer, as the System V
ABI has it, is read back.
-/
import YakKernel.ByteMemory

namespace Launch

open ByteMemory

/-! ## Filling the stack -/

/-- `struct load_info` -/
structure LoadInfo where
  realEntry : BitVec 64
  progEntry : BitVec 64
  base : BitVec 64
  phdr : BitVec 64
  phnum : BitVec 64
  phent : BitVec 64

/-- `setup_auxv`: types and values. -/
def setupAuxv (info : LoadInfo) : List (ℕ × ℕ) :=
  [(3, info.phdr.toNat), (4, info.phent.toNat), (5, info.phnum.toNat), (9, info.progEntry.toNat),
    (6, 4096), (7, info.base.toNat), (11, 0), (12, 0), (13, 0), (14, 0)]

/-- The word count of `launch_elf`. -/
def wordCount (argc envc auxvc : ℕ) : ℕ := envc + argc + auxvc * 2 + 4

/-- `ALIGN_DOWN(user_stack_addr, 16)` -/
def alignDown (s : Stack) : Stack := { s with sp := s.sp / 16 * 16 }

/-- The stack pointer before the words: aligned, and a word further when their count is odd. -/
def alignStack (s : Stack) (words : ℕ) : Stack :=
  if (alignDown s).below (words * 8) % 16 = 0 then alignDown s
  else { alignDown s with sp := (alignDown s).below 8 }

/-- The words, from the last one on. -/
def wordsOf (argc : ℕ) (argvPtrs envpPtrs : List ℕ) (auxv : List (ℕ × ℕ)) : List ℕ :=
  [0] ++ auxv.flatMap (fun p => [p.2, p.1]) ++ [0] ++ envpPtrs.reverse ++ [0] ++
    argvPtrs.reverse ++ [argc]

/-- What `launch_elf` does with the user stack. -/
def fillStack (top : Stack) (argv envp : List (List UInt8)) (auxv : List (ℕ × ℕ)) : Stack :=
  let r := top.pushStrings argv
  let q := r.1.pushStrings envp
  (alignStack q.1 (wordCount argv.length envp.length auxv.length)).pushWords
    (wordsOf argv.length r.2 q.2 auxv)

/-! ## Reading it back -/

/-- What a program is given. -/
structure Image where
  argc : ℕ
  argv : List (List UInt8)
  envp : List (List UInt8)
  auxv : List (ℕ × ℕ)
  deriving DecidableEq

/-- The System V layout from the stack pointer on; no list and no string is longer than the
fuel. -/
def decode (fuel : ℕ) (mem : ℕ → UInt8) (sp : ℕ) : Option Image :=
  let argc := readWord mem sp
  let argv := readWords mem (sp + 8) argc
  if readWord mem (sp + 8 + 8 * argc) = 0 then
    (wordsUntilNull mem fuel (sp + 8 + 8 * (argc + 1))).bind fun envp =>
    (pairsUntilNull mem fuel (sp + 8 + 8 * (argc + 1 + (envp.length + 1)))).bind fun auxv =>
    (argv.mapM (readString mem fuel)).bind fun argvStrings =>
    (envp.mapM (readString mem fuel)).bind fun envpStrings =>
      some ⟨argc, argvStrings, envpStrings, auxv⟩
  else none

/-- How much room the image takes. -/
def need (argv envp : List (List UInt8)) (auxvc : ℕ) : ℕ :=
  16 * ((Stack.room argv + Stack.room envp + 15) / 16) +
    16 * ((wordCount argv.length envp.length auxvc + 1) / 2)

variable {s top : Stack} {argv envp : List (List UInt8)} {auxv : List (ℕ × ℕ)} {n : ℕ}

/-! ## Alignment -/

theorem below_lt (s : Stack) (n : ℕ) : s.below n < 2 ^ 64 := Nat.mod_lt _ (by norm_num)

theorem pushWords_sp (hsp : s.sp < 2 ^ 64) (words : List ℕ) :
    (s.pushWords words).sp = s.below (8 * words.length) := by
  induction words using List.reverseRecOn with
  | nil =>
    rw [Stack.pushWords, List.foldl_nil, List.length_nil, Stack.below]
    omega
  | append_singleton words w ih =>
    have hpush : (s.pushWords (words ++ [w])).sp =
        (s.pushWords words).below (littleEndian 8 w).length := by
      rw [Stack.pushWords_append]
      rfl
    rw [hpush, littleEndian_length, Stack.below, ih, Stack.below, Stack.below,
      List.length_append, List.length_singleton]
    omega

/-- **The stack pointer is aligned**, wherever it is. -/
theorem alignStack_aligned (s : Stack) (words : ℕ) (hsp : s.sp < 2 ^ 64) :
    (alignStack s words).sp < 2 ^ 64 ∧ (alignStack s words).below (8 * words) % 16 = 0 := by
  have hdown : (alignDown s).sp = s.sp / 16 * 16 := rfl
  unfold alignStack
  split
  · next haligned =>
    refine ⟨?_, ?_⟩
    · rw [hdown]
      omega
    · rw [Nat.mul_comm]
      exact haligned
  · next hodd =>
    refine ⟨below_lt _ 8, ?_⟩
    simp only [Stack.below, hdown] at hodd ⊢
    omega

theorem wordsOf_length (argc : ℕ) (argvPtrs envpPtrs : List ℕ) (auxv : List (ℕ × ℕ)) :
    (wordsOf argc argvPtrs envpPtrs auxv).length =
      wordCount argvPtrs.length envpPtrs.length auxv.length := by
  have hpairs : (auxv.flatMap (fun p => [p.2, p.1])).length = auxv.length * 2 := by
    induction auxv with
    | nil => rfl
    | cons p auxv ih =>
      rw [List.flatMap_cons, List.length_append, ih, List.length_cons, List.length_cons,
        List.length_cons, List.length_nil]
      omega
  simp only [wordsOf, List.length_append, List.length_reverse, hpairs, List.length_singleton,
    wordCount]
  omega

theorem push_lt (s : Stack) (bytes : List UInt8) : (s.push bytes).sp < 2 ^ 64 := below_lt s _

theorem pushStrings_lt (hsp : s.sp < 2 ^ 64) (strs : List (List UInt8)) :
    (s.pushStrings strs).1.sp < 2 ^ 64 ∧ (s.pushStrings strs).2.length = strs.length := by
  induction strs generalizing s with
  | nil => exact ⟨hsp, rfl⟩
  | cons str strs ih =>
    obtain ⟨hlt, hlength⟩ := ih (push_lt s (str ++ [0]))
    exact ⟨hlt, congrArg (· + 1) hlength⟩

theorem fillStack_aligned (hsp : top.sp < 2 ^ 64) (argv envp : List (List UInt8))
    (auxv : List (ℕ × ℕ)) : (fillStack top argv envp auxv).sp % 16 = 0 := by
  obtain ⟨hargv, hargc⟩ := pushStrings_lt hsp argv
  obtain ⟨henvp, henvc⟩ := pushStrings_lt hargv envp
  obtain ⟨hlt, haligned⟩ := alignStack_aligned _
    (wordCount argv.length envp.length auxv.length) henvp
  unfold fillStack
  rw [pushWords_sp hlt, wordsOf_length, hargc, henvc]
  exact haligned

/-! ## The image -/

theorem alignStack_spec {words : ℕ} (hsp : s.sp < 2 ^ 64)
    (hroom : 8 * words + 8 * (words % 2) ≤ s.sp / 16 * 16) :
    (alignStack s words).sp = s.sp / 16 * 16 - 8 * (words % 2) ∧
      (alignStack s words).mem = s.mem := by
  have hdown : (alignDown s).sp = s.sp / 16 * 16 := rfl
  have hbelow := Stack.below_eq (s := alignDown s) (n := words * 8) (by omega) (by omega)
  unfold alignStack
  split
  · next haligned =>
    refine ⟨?_, rfl⟩
    omega
  · next hodd =>
    have hone := Stack.below_eq (s := alignDown s) (n := 8) (by omega) (by omega)
    refine ⟨?_, rfl⟩
    show (alignDown s).below 8 = _
    omega

theorem wordsOf_reverse (argc : ℕ) (argvPtrs envpPtrs : List ℕ) (auxv : List (ℕ × ℕ)) :
    (wordsOf argc argvPtrs envpPtrs auxv).reverse =
      argc :: (argvPtrs ++ 0 :: (envpPtrs ++ 0 ::
        (auxv.reverse.flatMap (fun p => [p.1, p.2]) ++ [0]))) := by
  have hpairs : (auxv.flatMap (fun p => [p.2, p.1])).reverse =
      auxv.reverse.flatMap (fun p => [p.1, p.2]) := by
    rw [List.reverse_flatMap]
    rfl
  simp [wordsOf, hpairs]

/-- A string of the image, between two addresses. -/
def StringAt (mem : ℕ → UInt8) (lo hi ptr : ℕ) (str : List UInt8) : Prop :=
  Holds mem ptr (str ++ [0]) ∧ lo ≤ ptr ∧ ptr + str.length + 1 ≤ hi

/-- **What the stack holds** when there is room: the words from the stack pointer on, and above them
the strings that they point to. -/
theorem fillStack_spec (hsp : top.sp < 2 ^ 64) (haligned : top.sp % 16 = 0)
    (hneed : need argv envp auxv.length ≤ top.sp) :
    ∃ argvPtrs envpPtrs lo,
      (fillStack top argv envp auxv).sp = top.sp - need argv envp auxv.length ∧
      (fillStack top argv envp auxv).sp +
        8 * wordCount argv.length envp.length auxv.length ≤ lo ∧
      HoldsWords (fillStack top argv envp auxv).mem (fillStack top argv envp auxv).sp
        (argv.length :: (argvPtrs ++ 0 :: (envpPtrs ++ 0 ::
          (auxv.reverse.flatMap (fun p => [p.1, p.2]) ++ [0])))) ∧
      List.Forall₂ (StringAt (fillStack top argv envp auxv).mem lo top.sp) argvPtrs argv ∧
      List.Forall₂ (StringAt (fillStack top argv envp auxv).mem lo top.sp) envpPtrs envp ∧
      ∀ a, a < (fillStack top argv envp auxv).sp ∨ top.sp ≤ a →
        (fillStack top argv envp auxv).mem a = top.mem a := by
  have hneed_eq : need argv envp auxv.length =
      16 * ((Stack.room argv + Stack.room envp + 15) / 16) +
        16 * ((wordCount argv.length envp.length auxv.length + 1) / 2) := rfl
  generalize hwords : wordCount argv.length envp.length auxv.length = words at *
  rw [hneed_eq] at hneed ⊢
  -- the strings
  have hargvRoom : Stack.room argv ≤ top.sp := by omega
  obtain ⟨hargvSp, hargv, hargvFrame⟩ := Stack.pushStrings_spec hargvRoom hsp
  have hargc := (pushStrings_lt hsp argv).2
  generalize hr : top.pushStrings argv = r at *
  have henvpRoom : Stack.room envp ≤ r.1.sp := by omega
  obtain ⟨henvpSp, henvp, henvpFrame⟩ := Stack.pushStrings_spec henvpRoom (by omega)
  have henvc := (pushStrings_lt (s := r.1) (by omega) envp).2
  generalize hq : r.1.pushStrings envp = q at *
  -- the words
  have hroom : 8 * words + 8 * (words % 2) ≤ q.1.sp / 16 * 16 := by omega
  obtain ⟨halignSp, halignMem⟩ := alignStack_spec (by omega) hroom
  have hlength : (wordsOf argv.length r.2 q.2 auxv).length = words := by
    rw [wordsOf_length, hargc, henvc, hwords]
  have hfill : fillStack top argv envp auxv =
      (alignStack q.1 words).pushWords (wordsOf argv.length r.2 q.2 auxv) := by
    rw [← hwords, ← hq, ← hr]
    rfl
  have hwordsRoom : 8 * (wordsOf argv.length r.2 q.2 auxv).length ≤ (alignStack q.1 words).sp := by
    omega
  obtain ⟨hendSp, hend, hendFrame⟩ := Stack.pushWords_spec hwordsRoom (by omega)
  rw [hlength] at hendSp hendFrame
  rw [wordsOf_reverse] at hend
  rw [hfill]
  refine ⟨r.2, q.2, top.sp - (Stack.room argv + Stack.room envp), ?_, ?_, hend, ?_, ?_, ?_⟩
  · omega
  · omega
  · refine hargv.imp fun ptr str hptr => ⟨?_, by omega, by omega⟩
    refine hptr.1.congr fun a ha hlt => ?_
    rw [hendFrame a (by omega), halignMem, henvpFrame a (by omega)]
  · refine henvp.imp fun ptr str hptr => ⟨?_, by omega, by omega⟩
    refine hptr.1.congr fun a ha hlt => ?_
    rw [hendFrame a (by omega), halignMem]
  · intro a ha
    rw [hendFrame a (by omega), halignMem, henvpFrame a (by omega), hargvFrame a (by omega)]

theorem mapM_readString {mem : ℕ → UInt8} {lo hi fuel : ℕ} {ptrs : List ℕ}
    {strs : List (List UInt8)} (h : List.Forall₂ (StringAt mem lo hi) ptrs strs)
    (hnull : ∀ str ∈ strs, (0 : UInt8) ∉ str) (hfuel : ∀ str ∈ strs, str.length < fuel) :
    ptrs.mapM (readString mem fuel) = some strs := by
  induction h with
  | nil => rfl
  | cons hptr hrest ih =>
    rename_i ptr str ptrs strs
    have hread := readString_eq hptr.1 (hnull str List.mem_cons_self)
      (hfuel str List.mem_cons_self)
    rw [List.mapM_cons, hread,
      ih (fun t ht => hnull t (List.mem_cons_of_mem str ht))
        (fun t ht => hfuel t (List.mem_cons_of_mem str ht))]
    rfl

theorem StringAt.mem_bounds {mem : ℕ → UInt8} {lo hi : ℕ} {ptrs : List ℕ}
    {strs : List (List UInt8)} (h : List.Forall₂ (StringAt mem lo hi) ptrs strs) :
    ∀ ptr ∈ ptrs, lo ≤ ptr ∧ ptr < hi := by
  induction h with
  | nil => exact fun ptr hmem => absurd hmem List.not_mem_nil
  | cons hptr hrest ih =>
    intro ptr hmem
    rcases List.mem_cons.mp hmem with rfl | hmem
    · exact ⟨hptr.2.1, by have := hptr.2.2; omega⟩
    · exact ih ptr hmem

theorem length_le_room (strs : List (List UInt8)) :
    strs.length ≤ Stack.room strs ∧ ∀ str ∈ strs, str.length ≤ Stack.room strs := by
  induction strs with
  | nil => exact ⟨le_rfl, fun str hmem => absurd hmem List.not_mem_nil⟩
  | cons str strs ih =>
    have hroom : Stack.room (str :: strs) = str.length + 1 + Stack.room strs := List.sum_cons
    rw [hroom, List.length_cons]
    refine ⟨by omega, fun t ht => ?_⟩
    rcases List.mem_cons.mp ht with rfl | ht
    · omega
    · have := ih.2 t ht
      omega

/-- **The image is read back**: the arguments, the environment and the auxiliary vector. -/
theorem decode_fillStack (hsp : top.sp < 2 ^ 64) (haligned : top.sp % 16 = 0)
    (hneed : need argv envp auxv.length ≤ top.sp) (hargv : ∀ str ∈ argv, (0 : UInt8) ∉ str)
    (henvp : ∀ str ∈ envp, (0 : UInt8) ∉ str)
    (hauxv : ∀ p ∈ auxv, p.1 ≠ 0 ∧ p.1 < 2 ^ 64 ∧ p.2 < 2 ^ 64) {fuel : ℕ} (hfuel : top.sp < fuel) :
    decode fuel (fillStack top argv envp auxv).mem (fillStack top argv envp auxv).sp =
      some ⟨argv.length, argv, envp, auxv.reverse⟩ := by
  obtain ⟨argvPtrs, envpPtrs, lo, hend, hlo, hwords, hargvAt, henvpAt, -⟩ :=
    fillStack_spec hsp haligned hneed
  have hargc := hargvAt.length_eq
  have henvc := henvpAt.length_eq
  have hargvRoom := length_le_room argv
  have henvpRoom := length_le_room envp
  have hneed_eq : need argv envp auxv.length =
      16 * ((Stack.room argv + Stack.room envp + 15) / 16) +
        16 * ((envp.length + argv.length + auxv.length * 2 + 4 + 1) / 2) := rfl
  have hlo_pos : 0 < lo := by
    unfold wordCount at hlo
    omega
  generalize (fillStack top argv envp auxv).sp = sp at *
  generalize (fillStack top argv envp auxv).mem = mem at *
  -- the pointers are words, and not null
  have hargvWord : ∀ w ∈ argvPtrs, w < 2 ^ 64 := by
    intro w hw
    have := StringAt.mem_bounds hargvAt w hw
    omega
  have henvpWord : ∀ w ∈ envpPtrs, w ≠ 0 ∧ w < 2 ^ 64 := by
    intro w hw
    have := StringAt.mem_bounds henvpAt w hw
    omega
  have hpairs : ∀ p ∈ auxv.reverse, p.1 ≠ 0 ∧ p.1 < 2 ^ 64 ∧ p.2 < 2 ^ 64 :=
    fun p hp => hauxv p (List.mem_reverse.mp hp)
  -- the parts of the image
  have hcount : readWord mem sp = argv.length := hwords.head (by omega)
  obtain ⟨hargvWords, hrest⟩ := (holdsWords_append _ _).mp hwords.tail
  obtain ⟨henvpWords, hrest'⟩ := (holdsWords_append _ _).mp hrest.tail
  have hargvRead : readWords mem (sp + 8) argv.length = argvPtrs := by
    rw [← hargc]
    exact readWords_eq hargvWords hargvWord
  rw [hargc] at hrest
  have hnull : readWord mem (sp + 8 + 8 * argv.length) = 0 := hrest.head (by norm_num)
  have henvpRead : wordsUntilNull mem fuel (sp + 8 + 8 * (argv.length + 1)) = some envpPtrs := by
    have htail := hrest.tail
    rw [show sp + 8 + 8 * argv.length + 8 = sp + 8 + 8 * (argv.length + 1) by omega] at htail
    exact wordsUntilNull_eq htail henvpWord (by omega)
  have hauxvRead : pairsUntilNull mem fuel
      (sp + 8 + 8 * (argv.length + 1 + (envpPtrs.length + 1))) = some auxv.reverse := by
    have htail := hrest'.tail
    rw [hargc, show sp + 8 + 8 * argv.length + 8 + 8 * envpPtrs.length + 8 =
      sp + 8 + 8 * (argv.length + 1 + (envpPtrs.length + 1)) by omega] at htail
    refine pairsUntilNull_eq htail hpairs ?_
    rw [List.length_reverse]
    omega
  have hargvStrings : argvPtrs.mapM (readString mem fuel) = some argv :=
    mapM_readString hargvAt hargv (fun str hstr => by have := hargvRoom.2 str hstr; omega)
  have henvpStrings : envpPtrs.mapM (readString mem fuel) = some envp :=
    mapM_readString henvpAt henvp (fun str hstr => by have := henvpRoom.2 str hstr; omega)
  simp only [decode, hcount, hargvRead, hnull, if_true, henvpRead, hauxvRead, hargvStrings,
    henvpStrings, Option.bind_some]

end Launch
