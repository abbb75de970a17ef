/-
# The ring buffer

`core/ringbuffer.c`.  A put copies as much as fits, in at most two pieces, and a get copies out as
much as there is.  What a buffer holds is a queue: a put appends the part that fits, a get takes
from the front.
-/
import Mathlib.Data.List.Rotate
import Mathlib.Tactic

/-- `struct ringbuffer`. -/
structure RingBuffer (α : Type*) where
  data : List α
  capacity : ℕ
  size : ℕ
  head : ℕ
  tail : ℕ

namespace RingBuffer

variable {α : Type*}

/-- `memcpy` into `data + offset`. -/
def memcpy (data : List α) (offset : ℕ) (buf : List α) : List α :=
  data.take offset ++ buf ++ data.drop (offset + buf.length)

/-- `ringbuffer_static_init`. -/
def staticInit (backing : List α) : RingBuffer α where
  data := backing
  capacity := backing.length
  size := 0
  head := 0
  tail := 0

/-- The smaller of a count and what there is. -/
def clamp (count limit : ℕ) : ℕ := if count < limit then count else limit

/-- The two copies of `ringbuffer_put`. -/
def write (rb : RingBuffer α) (buf : List α) (writeSize : ℕ) : List α :=
  let first := if rb.capacity - rb.head > writeSize then writeSize else rb.capacity - rb.head
  let data := memcpy rb.data rb.head (buf.take first)
  let remaining := writeSize - first
  if remaining > 0 then memcpy data 0 ((buf.drop first).take remaining) else data

/-- `ringbuffer_put`: how much was written. -/
def put (rb : RingBuffer α) (buf : List α) : ℕ × RingBuffer α :=
  if buf.length = 0 then (0, rb)
  else if rb.capacity - rb.size = 0 then (0, rb)
  else
    let writeSize := clamp buf.length (rb.capacity - rb.size)
    (writeSize, { rb with
      data := rb.write buf writeSize
      head := (rb.head + writeSize) % rb.capacity
      size := rb.size + writeSize })

/-- The two copies of `ringbuffer_get`. -/
def read (rb : RingBuffer α) (readSize : ℕ) : List α :=
  let first := if rb.capacity - rb.tail > readSize then readSize else rb.capacity - rb.tail
  (rb.data.drop rb.tail).take first ++ rb.data.take (readSize - first)

/-- `ringbuffer_get`: what was read. -/
def get (rb : RingBuffer α) (count : ℕ) : List α × RingBuffer α :=
  if count = 0 then ([], rb)
  else if rb.size = 0 then ([], rb)
  else
    let readSize := clamp count rb.size
    (rb.read readSize, { rb with
      tail := (rb.tail + readSize) % rb.capacity
      size := rb.size - readSize })

/-- `ringbuffer_available`. -/
def available (rb : RingBuffer α) : ℕ := rb.size

/-! ## What a buffer holds -/

/-- The indices are in range, and agree with the size. -/
structure WellFormed (rb : RingBuffer α) : Prop where
  length_eq : rb.data.length = rb.capacity
  pos : 0 < rb.capacity
  size_le : rb.size ≤ rb.capacity
  tail_lt : rb.tail < rb.capacity
  head_eq : rb.head = (rb.tail + rb.size) % rb.capacity

/-- What the buffer holds, from the oldest on. -/
def contents (rb : RingBuffer α) : List α := (rb.data.rotate rb.tail).take rb.size

variable {rb : RingBuffer α} {buf data : List α} {i j n offset : ℕ}

theorem contents_length (h : rb.WellFormed) : rb.contents.length = rb.size := by
  have := h.size_le
  rw [contents, List.length_take, List.length_rotate, h.length_eq]
  omega

theorem contents_getElem? (h : rb.WellFormed) (hi : i < rb.size) :
    rb.contents[i]? = rb.data[(rb.tail + i) % rb.capacity]? := by
  have hsize := h.size_le
  rw [contents, List.getElem?_take_of_lt hi, List.getElem?_rotate (by rw [h.length_eq]; omega),
    h.length_eq, Nat.add_comm]

theorem mod_eq {a c : ℕ} (h : a < 2 * c) : a % c = if a < c then a else a - c := by
  by_cases hlt : a < c
  · rw [if_pos hlt, Nat.mod_eq_of_lt hlt]
  · rw [if_neg hlt, Nat.mod_eq_sub_mod (by omega), Nat.mod_eq_of_lt (by omega)]

theorem staticInit_wellFormed (h : data ≠ []) : (staticInit data).WellFormed where
  length_eq := rfl
  pos := List.length_pos_iff.mpr h
  size_le := Nat.zero_le _
  tail_lt := List.length_pos_iff.mpr h
  head_eq := (Nat.zero_mod _).symm

theorem staticInit_contents (data : List α) : (staticInit data).contents = [] := List.take_zero

/-! ## Copies -/

theorem memcpy_length (h : offset + buf.length ≤ data.length) :
    (memcpy data offset buf).length = data.length := by
  simp only [memcpy, List.length_append, List.length_take, List.length_drop]
  omega

theorem memcpy_getElem? (h : offset + buf.length ≤ data.length) (i : ℕ) :
    (memcpy data offset buf)[i]? =
      if offset ≤ i ∧ i < offset + buf.length then buf[i - offset]? else data[i]? := by
  have htake : (data.take offset).length = offset := by
    rw [List.length_take]
    omega
  rw [memcpy, List.append_assoc]
  by_cases hlow : i < offset
  · rw [List.getElem?_append_left (by omega), List.getElem?_take_of_lt hlow, if_neg (by omega)]
  · rw [List.getElem?_append_right (by omega), htake]
    by_cases hhigh : i < offset + buf.length
    · rw [List.getElem?_append_left (by omega), if_pos ⟨by omega, hhigh⟩]
    · rw [List.getElem?_append_right (by omega), List.getElem?_drop, if_neg (by omega)]
      congr 1
      omega

/-- The two copies of a put write `n` elements from the head on, around the end. -/
theorem write_getElem? (h : rb.WellFormed) (hn : n ≤ buf.length)
    (hfit : rb.size + n ≤ rb.capacity) (hi : i < rb.capacity) :
    (rb.write buf n)[(rb.head + i) % rb.capacity]? =
      if i < n then buf[i]? else rb.data[(rb.head + i) % rb.capacity]? := by
  have hlen := h.length_eq
  have hhead : rb.head < rb.capacity := by
    rw [h.head_eq]
    exact Nat.mod_lt _ h.pos
  rw [mod_eq (by omega : rb.head + i < 2 * rb.capacity)]
  simp only [write]
  generalize hfirst : (if rb.capacity - rb.head > n then n else rb.capacity - rb.head) = first
  have hfirst_le : first ≤ n ∧ rb.head + first ≤ rb.capacity ∧
      (first < n → rb.head + first = rb.capacity) := by
    rw [← hfirst]
    split
    · omega
    · omega
  have htake : (buf.take first).length = first := by
    rw [List.length_take]
    omega
  have hcopylen : (memcpy rb.data rb.head (buf.take first)).length = rb.data.length :=
    memcpy_length (by omega)
  have hone : ∀ p, (memcpy rb.data rb.head (buf.take first))[p]? =
      if rb.head ≤ p ∧ p < rb.head + first then buf[p - rb.head]? else rb.data[p]? := by
    intro p
    rw [memcpy_getElem? (by omega), htake]
    by_cases hp : rb.head ≤ p ∧ p < rb.head + first
    · rw [if_pos hp, if_pos hp, List.getElem?_take_of_lt (by omega)]
    · rw [if_neg hp, if_neg hp]
  by_cases hrem : n - first > 0
  · rw [if_pos hrem]
    have hrest : ((buf.drop first).take (n - first)).length = n - first := by
      rw [List.length_take, List.length_drop]
      omega
    rw [memcpy_getElem? (by omega), hrest]
    -- the second copy starts at index 0
    by_cases hend : rb.head + i < rb.capacity
    · rw [if_pos hend, if_neg (by omega), hone]
      by_cases hin : i < n
      · rw [if_pos (by omega), if_pos hin]
        congr 1
        omega
      · omega
    · rw [if_neg hend]
      by_cases hin : i < n
      · rw [if_pos (by omega), if_pos hin, List.getElem?_take_of_lt (by omega),
          List.getElem?_drop]
        congr 1
        omega
      · rw [if_neg (by omega), if_neg hin, hone, if_neg (by omega)]
  · rw [if_neg hrem, hone]
    by_cases hend : rb.head + i < rb.capacity
    · rw [if_pos hend]
      by_cases hin : i < n
      · rw [if_pos (by omega), if_pos hin]
        congr 1
        omega
      · rw [if_neg (by omega), if_neg hin]
    · rw [if_neg hend, if_neg (by omega), if_neg (by omega)]

theorem write_length (h : rb.WellFormed) (hn : n ≤ buf.length)
    (hfit : rb.size + n ≤ rb.capacity) : (rb.write buf n).length = rb.capacity := by
  have hlen := h.length_eq
  have hhead : rb.head < rb.capacity := by
    rw [h.head_eq]
    exact Nat.mod_lt _ h.pos
  simp only [write]
  generalize hfirst : (if rb.capacity - rb.head > n then n else rb.capacity - rb.head) = first
  have hfirst_le : first ≤ n ∧ rb.head + first ≤ rb.capacity := by
    rw [← hfirst]
    split
    · omega
    · omega
  have htake : (buf.take first).length = first := by
    rw [List.length_take]
    omega
  have hcopylen : (memcpy rb.data rb.head (buf.take first)).length = rb.data.length :=
    memcpy_length (by omega)
  have hrest : ((buf.drop first).take (n - first)).length = n - first := by
    rw [List.length_take, List.length_drop]
    omega
  split
  · rw [memcpy_length (by omega), hcopylen, hlen]
  · rw [hcopylen, hlen]

theorem read_eq (h : rb.WellFormed) (hn : n ≤ rb.size) : rb.read n = rb.contents.take n := by
  have hlen := h.length_eq
  have hsize := h.size_le
  have htail := h.tail_lt
  rw [contents, List.take_take, Nat.min_eq_left hn,
    List.rotate_eq_drop_append_take (by omega), List.take_append, List.length_drop]
  simp only [read]
  by_cases hone : rb.capacity - rb.tail > n
  · rw [if_pos hone, Nat.sub_self, show n - (rb.data.length - rb.tail) = 0 by omega]
    simp
  · rw [if_neg hone, List.take_take, hlen, Nat.min_eq_left (by omega)]
    congr 1
    rw [List.take_of_length_le (by rw [List.length_drop]; omega),
      List.take_of_length_le (by rw [List.length_drop]; omega)]

/-! ## The buffer is a queue -/

theorem clamp_eq (count limit : ℕ) : clamp count limit = min count limit := by
  rw [clamp]
  split
  · omega
  · omega

theorem put_eq (rb : RingBuffer α) (hbuf : buf ≠ []) (hfree : rb.size < rb.capacity) :
    rb.put buf = (min buf.length (rb.capacity - rb.size),
      { rb with
        data := rb.write buf (min buf.length (rb.capacity - rb.size))
        head := (rb.head + min buf.length (rb.capacity - rb.size)) % rb.capacity
        size := rb.size + min buf.length (rb.capacity - rb.size) }) := by
  have hpos := List.length_pos_iff.mpr hbuf
  rw [put, if_neg (by omega), if_neg (by omega)]
  simp only [clamp_eq]

theorem put_fst (rb : RingBuffer α) (buf : List α) :
    (rb.put buf).1 = min buf.length (rb.capacity - rb.size) := by
  rw [put]
  split
  · omega
  · split
    · omega
    · exact clamp_eq _ _

theorem put_wellFormed (h : rb.WellFormed) (buf : List α) : (rb.put buf).2.WellFormed := by
  have hsize := h.size_le
  by_cases hbuf : buf = []
  · rw [hbuf]
    exact h
  by_cases hfree : rb.size < rb.capacity
  · rw [put_eq rb hbuf hfree]
    refine ⟨?_, h.pos, ?_, h.tail_lt, ?_⟩
    · exact write_length h (by omega) (by omega)
    · show rb.size + _ ≤ rb.capacity
      omega
    · show (rb.head + _) % rb.capacity = (rb.tail + (rb.size + _)) % rb.capacity
      rw [h.head_eq, Nat.mod_add_mod, Nat.add_assoc]
  · rw [put, if_neg (fun h0 => hbuf (List.length_eq_zero_iff.mp h0)), if_pos (by omega)]
    exact h

/-- **A put appends what fits.** -/
theorem put_contents (h : rb.WellFormed) (buf : List α) :
    (rb.put buf).2.contents = rb.contents ++ buf.take (rb.put buf).1 := by
  have hsize := h.size_le
  have htail := h.tail_lt
  have hwf := put_wellFormed h buf
  rw [put_fst]
  by_cases hbuf : buf = []
  · subst hbuf
    rw [List.take_nil, List.append_nil]
    rfl
  by_cases hfree : rb.size < rb.capacity
  · rw [put_eq rb hbuf hfree] at hwf ⊢
    generalize hn : min buf.length (rb.capacity - rb.size) = n at *
    have hlen := contents_length h
    refine List.ext_getElem? (fun i => ?_)
    by_cases hi : i < rb.size + n
    · rw [contents_getElem? hwf hi]
      show (rb.write buf n)[(rb.tail + i) % rb.capacity]? = _
      by_cases hlow : i < rb.size
      · -- an element that was there before
        rw [List.getElem?_append_left (by omega), contents_getElem? h hlow]
        have hround : (rb.tail + i) % rb.capacity =
            (rb.head + (rb.capacity - rb.size + i)) % rb.capacity := by
          rw [h.head_eq, Nat.mod_add_mod,
            show rb.tail + rb.size + (rb.capacity - rb.size + i) = rb.tail + i + rb.capacity by
              omega, Nat.add_mod_right]
        rw [hround, write_getElem? h (by omega) (by omega) (by omega), if_neg (by omega)]
      · rw [List.getElem?_append_right (by omega), hlen, List.getElem?_take_of_lt (by omega)]
        have hround : (rb.tail + i) % rb.capacity =
            (rb.head + (i - rb.size)) % rb.capacity := by
          rw [h.head_eq, Nat.mod_add_mod, show rb.tail + rb.size + (i - rb.size) = rb.tail + i by
            omega]
        rw [hround, write_getElem? h (by omega) (by omega) (by omega), if_pos (by omega)]
    · rw [List.getElem?_eq_none (by rw [contents_length hwf]; exact not_lt.mp hi),
        List.getElem?_eq_none]
      rw [List.length_append, hlen, List.length_take]
      omega
  · rw [put, if_neg (fun h0 => hbuf (List.length_eq_zero_iff.mp h0)), if_pos (by omega),
      show rb.capacity - rb.size = 0 by omega, Nat.min_zero, List.take_zero, List.append_nil]

theorem get_eq (rb : RingBuffer α) (hn : n ≠ 0) (hsize : rb.size ≠ 0) :
    rb.get n = (rb.read (min n rb.size), { rb with
      tail := (rb.tail + min n rb.size) % rb.capacity
      size := rb.size - min n rb.size }) := by
  rw [get, if_neg hn, if_neg hsize]
  simp only [clamp_eq]

theorem get_wellFormed (h : rb.WellFormed) (n : ℕ) : (rb.get n).2.WellFormed := by
  have hsize := h.size_le
  by_cases hn : n = 0
  · rw [get, if_pos hn]
    exact h
  by_cases hempty : rb.size = 0
  · rw [get, if_neg hn, if_pos hempty]
    exact h
  · rw [get_eq rb hn hempty]
    refine ⟨h.length_eq, h.pos, ?_, Nat.mod_lt _ h.pos, ?_⟩
    · show rb.size - _ ≤ rb.capacity
      omega
    · show rb.head = ((rb.tail + _) % rb.capacity + (rb.size - _)) % rb.capacity
      rw [h.head_eq, Nat.mod_add_mod]
      congr 1
      omega

/-- **A get takes from the front.** -/
theorem get_contents (h : rb.WellFormed) (n : ℕ) :
    (rb.get n).1 = rb.contents.take n ∧ (rb.get n).2.contents = rb.contents.drop n := by
  have hlen := contents_length h
  have hsize := h.size_le
  have htail := h.tail_lt
  have hwf := get_wellFormed h n
  by_cases hn : n = 0
  · subst hn
    exact ⟨rfl, rfl⟩
  by_cases hempty : rb.size = 0
  · have hnil : rb.contents = [] := List.length_eq_zero_iff.mp (by omega)
    rw [get, if_neg hn, if_pos hempty, hnil, List.take_nil, List.drop_nil]
    exact ⟨rfl, rfl⟩
  · rw [get_eq rb hn hempty] at hwf ⊢
    constructor
    · rw [read_eq h (by omega), ← hlen, List.take_eq_take_iff]
      omega
    · refine List.ext_getElem? (fun i => ?_)
      rw [List.getElem?_drop]
      by_cases hi : i < rb.size - min n rb.size
      · rw [contents_getElem? hwf hi, contents_getElem? h (by omega)]
        show rb.data[((rb.tail + min n rb.size) % rb.capacity + i) % rb.capacity]? = _
        rw [Nat.mod_add_mod]
        congr 2
        omega
      · rw [List.getElem?_eq_none (by rw [contents_length hwf]; exact not_lt.mp hi),
          List.getElem?_eq_none (by omega)]

/-! ## Sequences of calls -/

/-- A call, of `ringbuffer_put` or `ringbuffer_get`. -/
inductive Call (α : Type*) where
  | put (buf : List α)
  | get (count : ℕ)

/-- What a call gives back. -/
inductive Reply (α : Type*) where
  | written (count : ℕ)
  | read (buf : List α)
  deriving DecidableEq

/-- The effect of a call. -/
def call (rb : RingBuffer α) : Call α → Reply α × RingBuffer α
  | .put buf => (.written (rb.put buf).1, (rb.put buf).2)
  | .get count => (.read (rb.get count).1, (rb.get count).2)

/-- Calls, one after the other. -/
def calls (rb : RingBuffer α) : List (Call α) → List (Reply α) × RingBuffer α
  | [] => ([], rb)
  | c :: cs => ((rb.call c).1 :: (calls (rb.call c).2 cs).1, (calls (rb.call c).2 cs).2)

/-- The pieces of the backing memory that a call copies, as offset and length. -/
def copies (rb : RingBuffer α) : Call α → List (ℕ × ℕ)
  | .put buf =>
    if buf.length = 0 ∨ rb.capacity - rb.size = 0 then []
    else
      let writeSize := clamp buf.length (rb.capacity - rb.size)
      let first := if rb.capacity - rb.head > writeSize then writeSize else rb.capacity - rb.head
      [(rb.head, first), (0, writeSize - first)]
  | .get count =>
    if count = 0 ∨ rb.size = 0 then []
    else
      let readSize := clamp count rb.size
      let first := if rb.capacity - rb.tail > readSize then readSize else rb.capacity - rb.tail
      [(rb.tail, first), (0, readSize - first)]

/-- The same calls on a queue of bounded length. -/
def fifoCall (capacity : ℕ) (queue : List α) : Call α → Reply α × List α
  | .put buf =>
    (.written (min buf.length (capacity - queue.length)),
      queue ++ buf.take (min buf.length (capacity - queue.length)))
  | .get count => (.read (queue.take count), queue.drop count)

def fifoCalls (capacity : ℕ) (queue : List α) : List (Call α) → List (Reply α) × List α
  | [] => ([], queue)
  | c :: cs =>
    ((fifoCall capacity queue c).1 :: (fifoCalls capacity (fifoCall capacity queue c).2 cs).1,
      (fifoCalls capacity (fifoCall capacity queue c).2 cs).2)

theorem put_capacity (rb : RingBuffer α) (buf : List α) :
    (rb.put buf).2.capacity = rb.capacity := by
  unfold put
  split_ifs <;> rfl

theorem get_capacity (rb : RingBuffer α) (n : ℕ) : (rb.get n).2.capacity = rb.capacity := by
  unfold get
  split_ifs <;> rfl

theorem call_refines (h : rb.WellFormed) (c : Call α) :
    (rb.call c).2.WellFormed ∧ (rb.call c).2.capacity = rb.capacity ∧
      (rb.call c).1 = (fifoCall rb.capacity rb.contents c).1 ∧
      (rb.call c).2.contents = (fifoCall rb.capacity rb.contents c).2 := by
  have hlen := contents_length h
  cases c with
  | put buf =>
    refine ⟨put_wellFormed h buf, put_capacity rb buf, ?_, ?_⟩
    · show Reply.written (rb.put buf).1 = .written (min buf.length (rb.capacity - rb.contents.length))
      rw [put_fst, hlen]
    · show (rb.put buf).2.contents =
        rb.contents ++ buf.take (min buf.length (rb.capacity - rb.contents.length))
      rw [put_contents h, put_fst, hlen]
  | get n =>
    obtain ⟨hread, hrest⟩ := get_contents h n
    exact ⟨get_wellFormed h n, get_capacity rb n, congrArg Reply.read hread, hrest⟩

theorem calls_refine (h : rb.WellFormed) (cs : List (Call α)) :
    (rb.calls cs).2.WellFormed ∧ (rb.calls cs).2.capacity = rb.capacity ∧
      (rb.calls cs).1 = (fifoCalls rb.capacity rb.contents cs).1 ∧
      (rb.calls cs).2.contents = (fifoCalls rb.capacity rb.contents cs).2 := by
  induction cs generalizing rb with
  | nil => exact ⟨h, rfl, rfl, rfl⟩
  | cons c cs ih =>
    obtain ⟨hwf, hcap, hreply, hcontents⟩ := call_refines h c
    obtain ⟨hwf', hcap', hreplies, hcontents'⟩ := ih hwf
    rw [hcap, hcontents] at hreplies hcontents'
    refine ⟨hwf', hcap'.trans hcap, ?_, hcontents'⟩
    show (rb.call c).1 :: ((rb.call c).2.calls cs).1 = _
    rw [hreply, hreplies]
    rfl

theorem head_lt (h : rb.WellFormed) : rb.head < rb.capacity := by
  rw [h.head_eq]
  exact Nat.mod_lt _ h.pos

theorem copies_inside (h : rb.WellFormed) (c : Call α) :
    ∀ piece ∈ rb.copies c, piece.1 + piece.2 ≤ rb.capacity := by
  have hhead := head_lt h
  have htail := h.tail_lt
  have hsize := h.size_le
  intro piece hpiece
  cases c with
  | put buf =>
    simp only [copies, clamp_eq] at hpiece
    split_ifs at hpiece
    · cases hpiece
    · rcases List.mem_pair.mp hpiece with rfl | rfl <;> simp only <;> omega
    · rcases List.mem_pair.mp hpiece with rfl | rfl <;> simp only <;> omega
  | get count =>
    simp only [copies, clamp_eq] at hpiece
    split_ifs at hpiece
    · cases hpiece
    · rcases List.mem_pair.mp hpiece with rfl | rfl <;> simp only <;> omega
    · rcases List.mem_pair.mp hpiece with rfl | rfl <;> simp only <;> omega

/-- **A bounded queue.**  Whatever is called, a buffer gives back what a queue of its capacity does,
and holds what that one holds; its indices stay in range, and the next call, whichever it is, copies
inside the backing memory only. -/
theorem refines_fifo (data : List α) (h : data ≠ []) (cs : List (Call α)) :
    ((staticInit data).calls cs).1 = (fifoCalls data.length [] cs).1 ∧
    ((staticInit data).calls cs).2.contents = (fifoCalls data.length [] cs).2 ∧
    ((staticInit data).calls cs).2.size = (fifoCalls data.length [] cs).2.length ∧
    ((staticInit data).calls cs).2.size ≤ data.length ∧
    ((staticInit data).calls cs).2.head < data.length ∧
    ((staticInit data).calls cs).2.tail < data.length ∧
    ∀ c, ∀ piece ∈ ((staticInit data).calls cs).2.copies c, piece.1 + piece.2 ≤ data.length := by
  obtain ⟨hwf, hcap, hreplies, hcontents⟩ := calls_refine (staticInit_wellFormed h) cs
  rw [staticInit_contents] at hreplies hcontents
  change _ = data.length at hcap
  have hhead := head_lt hwf
  have htail := hwf.tail_lt
  have hsize := hwf.size_le
  have hinside := copies_inside hwf
  rw [hcap] at hhead htail hsize hinside
  refine ⟨hreplies, hcontents, ?_, hsize, hhead, htail, hinside⟩
  rw [← contents_length hwf, hcontents]
  rfl

/-- A buffer of three takes two and then two of three, around the end. -/
theorem refines_fifo_three :
    ((staticInit [0, 0, 0]).calls [.put [1, 2], .get 1, .put [3, 4, 5], .get 9]).1 =
      [.written 2, .read [1], .written 2, .read [2, 3, 4]] := by
  rw [(refines_fifo [0, 0, 0] (by decide) _).1]
  rfl

end RingBuffer
