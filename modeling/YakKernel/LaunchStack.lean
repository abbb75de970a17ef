/-
# What a launched program finds on its stack

`launch_elf` fills the user stack without a look at its length.  An image that fits is read back
from the stack pointer of the new thread; for one that does not fit the call succeeds too.
-/
import YakKernel.Launch

namespace Launch

open ByteMemory KernelThread

/-- All that `launch_elf` calls succeeds. -/
structure Answers.Succeeds (ans : Answers) : Prop where
  lawful : ans.Lawful
  vfsOpen : ans.vfsOpen = .success
  thrd : ans.thrd ≠ none
  argvPtr : ans.argvPtr ≠ none
  envpPtr : ans.envpPtr ≠ none
  kernelStack : ans.kernelStack ≠ none
  elfLoad : ans.elfLoad.1 = .success
  userStack : ans.userStack.1 = .success
  fpState : ans.fpState ≠ none

/-- The image fits into the user stack. -/
def Fits (argv envp : List (List UInt8)) : Prop := need argv envp 10 ≤ userStackLength

instance (argv envp : List (List UInt8)) : Decidable (Fits argv envp) :=
  inferInstanceAs (Decidable (_ ≤ _))

/-- **The stack is right**: it is aligned, what is read from it is the image, no word overlaps a
string, and no byte outside of the mapping is written. -/
structure StackRight (ans : Answers) (p : Program) (mem : ℕ → UInt8) (sp : ℕ) : Prop where
  aligned : sp % 16 = 0
  image : ∃ n, ∀ fuel, n ≤ fuel → decode fuel mem sp =
    some ⟨p.argv.length, p.argv, p.envp, (setupAuxv ans.elfLoad.2).reverse⟩
  argv_apart : List.Forall₂ (StringAt mem (sp + 8 * wordCount p.argv.length p.envp.length 10)
    (ans.userStack.2 + userStackLength)) (readWords mem (sp + 8) p.argv.length) p.argv
  envp_apart : List.Forall₂ (StringAt mem (sp + 8 * wordCount p.argv.length p.envp.length 10)
    (ans.userStack.2 + userStackLength))
    (readWords mem (sp + 8 + 8 * (p.argv.length + 1)) p.envp.length) p.envp
  inside : ans.userStack.2 ≤ sp ∧ ∀ a, a < ans.userStack.2 ∨ ans.userStack.2 + userStackLength ≤ a →
    mem a = ans.userMemory a

/-- **The claim of a program**: an image that fits is there, and one that does not fit is refused
without a byte below the stack. -/
def DecodesBack (ans : Answers) (p : Program) (s : State) : Prop :=
  (Fits p.argv p.envp → ∃ thrd s' sp, launchElf ans p s = .ok (.success, some thrd, s') ∧
    (s'.kernel.thread thrd).pcb.map Pcb.r14 = some sp ∧ StackRight ans p s'.mem sp) ∧
  (¬ Fits p.argv p.envp → ∃ rv s', launchElf ans p s = .ok (rv, none, s') ∧ rv ≠ .success ∧
    ∀ a, a < ans.userStack.2 → s'.mem a = ans.userMemory a)

variable {ans : Answers} {p : Program} {s : State}

/-! ## An image that fits -/

theorem setupAuxv_words (info : LoadInfo) :
    ∀ q ∈ setupAuxv info, q.1 ≠ 0 ∧ q.1 < 2 ^ 64 ∧ q.2 < 2 ^ 64 := by
  intro q hq
  have hlt : ∀ b : BitVec 64, b.toNat < 2 ^ 64 := fun b => b.isLt
  simp only [setupAuxv, List.mem_cons, List.not_mem_nil, or_false] at hq
  rcases hq with rfl | rfl | rfl | rfl | rfl | rfl | rfl | rfl | rfl | rfl
  all_goals exact ⟨by norm_num, by norm_num, by first | exact hlt _ | norm_num⟩

theorem StringAt.mono {mem : ℕ → UInt8} {lo lo' hi ptr : ℕ} {str : List UInt8} (hlo : lo' ≤ lo)
    (h : StringAt mem lo hi ptr str) : StringAt mem lo' hi ptr str :=
  ⟨h.1, hlo.trans h.2.1, h.2.2⟩

/-- **An image that fits is right.** -/
theorem filled_right (hlawful : ans.Lawful) (hfits : Fits p.argv p.envp) :
    StackRight ans p (filled ans p).mem (filled ans p).sp := by
  obtain ⟨htop, haligned⟩ := hlawful.top
  have hlt : ans.userStack.2 + userStackLength < 2 ^ 64 := hlawful.2
  have hfits' : need p.argv p.envp (setupAuxv ans.elfLoad.2).length ≤ userStackLength := hfits
  have hneed : need p.argv p.envp (setupAuxv ans.elfLoad.2).length ≤
      ans.userStack.2 + userStackLength := hfits'.trans (Nat.le_add_left _ _)
  obtain ⟨argvPtrs, envpPtrs, lo, hsp, hlo, hwords, hargv, henvp, hframe⟩ :=
    @fillStack_spec ⟨ans.userMemory, ans.userStack.2 + userStackLength⟩ _ _ _ hlt haligned hneed
  have hdecode : ∀ fuel, ans.userStack.2 + userStackLength + 1 ≤ fuel →
      decode fuel (filled ans p).mem (filled ans p).sp =
        some ⟨p.argv.length, p.argv, p.envp, (setupAuxv ans.elfLoad.2).reverse⟩ :=
    fun fuel hfuel =>
      @decode_fillStack ⟨ans.userMemory, ans.userStack.2 + userStackLength⟩ _ _ _ hlt haligned
        hneed p.argv_string p.envp_string (setupAuxv_words _) fuel hfuel
  have hargvWord : ∀ w ∈ argvPtrs, w < 2 ^ 64 := by
    intro w hw
    have hbounds := StringAt.mem_bounds hargv w hw
    exact hbounds.2.trans hlt
  have henvpWord : ∀ w ∈ envpPtrs, w < 2 ^ 64 := by
    intro w hw
    have hbounds := StringAt.mem_bounds henvp w hw
    exact hbounds.2.trans hlt
  obtain ⟨hargvWords, hrest⟩ := (holdsWords_append _ _).mp hwords.tail
  obtain ⟨henvpWords, -⟩ := (holdsWords_append _ _).mp hrest.tail
  have hargvRead := readWords_eq hargvWords hargvWord
  have henvpRead := readWords_eq henvpWords henvpWord
  rw [hargv.length_eq] at hargvRead henvpRead
  rw [henvp.length_eq] at henvpRead
  have hargvSame : readWords (filled ans p).mem ((filled ans p).sp + 8) p.argv.length = argvPtrs :=
    hargvRead
  have henvpSame : readWords (filled ans p).mem ((filled ans p).sp + 8 + 8 * (p.argv.length + 1))
      p.envp.length = envpPtrs := by
    rw [Nat.mul_add, ← Nat.add_assoc]
    exact henvpRead
  constructor
  case aligned => exact fillStack_aligned hlt _ _ _
  case image => exact ⟨_, hdecode⟩
  case argv_apart =>
    rw [hargvSame]
    exact hargv.imp fun _ _ => StringAt.mono hlo
  case envp_apart =>
    rw [henvpSame]
    exact henvp.imp fun _ _ => StringAt.mono hlo
  case inside =>
    have hbase : ans.userStack.2 ≤ (filled ans p).sp := by
      show ans.userStack.2 ≤ (fillStack _ _ _ _).sp
      rw [hsp]
      show ans.userStack.2 ≤ ans.userStack.2 + userStackLength - _
      omega
    refine ⟨hbase, fun a ha => hframe a ?_⟩
    exact ha.imp (fun hlow => lt_of_lt_of_le hlow hbase) id

/-! ## Every image -/

theorem launchElf_succeeds (h : ans.Succeeds) (hs : s.Ready) (hargv : p.argv ≠ []) :
    ∃ thrd s', launchElf ans p s = .ok (.success, some thrd, s') ∧
      (s'.kernel.thread thrd).pcb.map Pcb.r14 = some (filled ans p).sp ∧
      s'.mem = (filled ans p).mem := by
  obtain ⟨thrd, hthrd⟩ := Option.ne_none_iff_exists'.mp h.thrd
  obtain ⟨argvPtr, hargvPtr⟩ := Option.ne_none_iff_exists'.mp h.argvPtr
  obtain ⟨envpPtr, henvpPtr⟩ := Option.ne_none_iff_exists'.mp h.envpPtr
  obtain ⟨kernelStack, hstack⟩ := Option.ne_none_iff_exists'.mp h.kernelStack
  have hrun := launchElf_allocates (p := p) (s := s)
    ⟨h.vfsOpen, hthrd, hargvPtr, henvpPtr, hstack⟩
  rw [if_neg (isErr_false h.elfLoad), if_neg (isErr_false h.userStack)] at hrun
  obtain ⟨s', hstart, hlaunched, hmem⟩ := (startThread_launched thrd argvPtr envpPtr h.lawful
    hargv hs hstack h.userStack ans.userMemory).2 h.fpState
  refine ⟨thrd, s', hrun.trans hstart, ?_, hmem⟩
  obtain ⟨kernelStack', name, -, -, -, hthread⟩ := hlaunched.thread
  rw [hthread]
  rfl

theorem launchElf_nil (h : ans.Succeeds) (hargv : p.argv = []) :
    launchElf ans p s = .error .nullDeref := by
  obtain ⟨thrd, hthrd⟩ := Option.ne_none_iff_exists'.mp h.thrd
  obtain ⟨argvPtr, hargvPtr⟩ := Option.ne_none_iff_exists'.mp h.argvPtr
  obtain ⟨envpPtr, henvpPtr⟩ := Option.ne_none_iff_exists'.mp h.envpPtr
  obtain ⟨kernelStack, hstack⟩ := Option.ne_none_iff_exists'.mp h.kernelStack
  rw [launchElf_allocates ⟨h.vfsOpen, hthrd, hargvPtr, henvpPtr, hstack⟩,
    if_neg (isErr_false h.elfLoad), if_neg (isErr_false h.userStack)]
  exact startThread_nil h.lawful hargv

/-- **The stack decodes back** exactly when there are arguments, and the image fits: nothing is
refused. -/
theorem decodesBack_iff (h : ans.Succeeds) (hs : s.Ready) :
    DecodesBack ans p s ↔ p.argv ≠ [] ∧ Fits p.argv p.envp := by
  by_cases hargv : p.argv = []
  · refine iff_of_false ?_ (fun hboth => hboth.1 hargv)
    have hrun := launchElf_nil (s := s) h hargv
    rintro ⟨hyes, hno⟩
    by_cases hfits : Fits p.argv p.envp
    · obtain ⟨thrd, s', sp, hrun', -⟩ := hyes hfits
      rw [hrun] at hrun'
      cases hrun'
    · obtain ⟨rv, s', hrun', -⟩ := hno hfits
      rw [hrun] at hrun'
      cases hrun'
  · obtain ⟨thrd, s', hrun, hsp, hmem⟩ := launchElf_succeeds h hs hargv
    by_cases hfits : Fits p.argv p.envp
    · refine iff_of_true ⟨fun _ => ?_, fun hno => absurd hfits hno⟩ ⟨hargv, hfits⟩
      refine ⟨thrd, s', (filled ans p).sp, hrun, hsp, ?_⟩
      rw [hmem]
      exact filled_right h.lawful hfits
    · refine iff_of_false (fun hboth => ?_) (fun hboth => hfits hboth.2)
      obtain ⟨rv, s₁, hrun', hrv, -⟩ := hboth.2 hfits
      rw [hrun] at hrun'
      cases hrun'

theorem goodAnswers_succeeds : goodAnswers.Succeeds where
  lawful := goodAnswers_lawful
  vfsOpen := rfl
  thrd := Option.some_ne_none 1
  argvPtr := Option.some_ne_none 2
  envpPtr := Option.some_ne_none 3
  kernelStack := Option.some_ne_none 4096
  elfLoad := rfl
  userStack := rfl
  fpState := Option.some_ne_none 5

/-- The argument `a` is read back. -/
theorem decodesBack_iff_runA : DecodesBack goodAnswers runA caller :=
  (decodesBack_iff goodAnswers_succeeds caller_ready).mpr ⟨List.cons_ne_nil _ _, by decide⟩

/-- One argument as long as the user stack. -/
def runLong : Program where
  proc := 7
  map := 8
  priority := 0
  argv := [List.replicate userStackLength 97]
  envp := []
  argv_string := by
    intro str hstr hnull
    rw [List.mem_singleton.mp hstr] at hnull
    exact absurd (List.eq_of_mem_replicate hnull) (by decide)
  envp_string := no_strings

theorem runLong_need (auxvc : ℕ) : need runLong.argv runLong.envp auxvc =
    16 * ((userStackLength + 1 + 15) / 16) + 16 * ((0 + 1 + auxvc * 2 + 4 + 1) / 2) := by
  have hargv : runLong.argv = [List.replicate userStackLength 97] := rfl
  have henvp : runLong.envp = [] := rfl
  rw [need, hargv, henvp, wordCount]
  simp only [Stack.room, List.map_cons, List.map_nil, List.sum_cons, List.sum_nil,
    List.length_replicate, List.length_cons, List.length_nil, Nat.add_zero, Nat.zero_add]

/-- **Counterexample.**  The argument is written from below the stack on, and the call succeeds. -/
theorem stack_overflows :
    (∃ thrd s', launchElf goodAnswers runLong caller = .ok (.success, some thrd, s') ∧
      ∃ a, a < goodAnswers.userStack.2 ∧ s'.mem a ≠ goodAnswers.userMemory a) ∧
    ¬ DecodesBack goodAnswers runLong caller := by
  obtain ⟨thrd, s', hrun, -, hmem⟩ :=
    @launchElf_succeeds _ runLong _ goodAnswers_succeeds caller_ready (List.cons_ne_nil _ _)
  obtain ⟨htop, haligned⟩ := goodAnswers_lawful.top
  have hlength : userStackLength = 4 * 2 ^ 20 := rfl
  have hbase : goodAnswers.userStack.2 = 0x7f0000000000 := rfl
  constructor
  · have hneed : need runLong.argv runLong.envp (setupAuxv goodAnswers.elfLoad.2).length ≤
        goodAnswers.userStack.2 + userStackLength := by
      rw [runLong_need, hlength, hbase]
      show _ + 16 * ((0 + 1 + 10 * 2 + 4 + 1) / 2) ≤ _
      norm_num
    obtain ⟨argvPtrs, envpPtrs, lo, -, -, -, hargv, -⟩ :=
      @fillStack_spec ⟨goodAnswers.userMemory, goodAnswers.userStack.2 + userStackLength⟩ _ _ _
        goodAnswers_lawful.2 haligned hneed
    refine ⟨thrd, s', hrun, ?_⟩
    rw [hmem]
    cases hargv with
    | cons hptr hrest =>
      rename_i ptr ptrs
      obtain ⟨hholds, -, hhigh⟩ := hptr
      refine ⟨ptr, ?_, ?_⟩
      · rw [List.length_replicate] at hhigh
        show ptr < goodAnswers.userStack.2
        have hhigh' : ptr + userStackLength + 1 ≤ goodAnswers.userStack.2 + userStackLength := hhigh
        omega
      · have hfirst : (filled goodAnswers runLong).mem ptr = 97 := by
          rw [hlength, show 4 * 2 ^ 20 = (4 * 2 ^ 20 - 1) + 1 by norm_num, List.replicate_succ,
            List.cons_append] at hholds
          exact hholds.1
        rw [hfirst]
        show (97 : UInt8) ≠ 0
        decide
  · intro hdecodes
    have hlong : ¬ Fits runLong.argv runLong.envp := by
      rw [Fits, runLong_need, hlength]
      norm_num
    obtain ⟨rv, s₁, hrun', -⟩ := hdecodes.2 hlong
    rw [hrun] at hrun'
    cases hrun'

end Launch
