/-
# The invariant of the process tree

Every process is in one place, on a list of children or in the hands of a thread that has taken it
from a list or is about to put it on one; every lock is held by one thread; and a process without
threads stays without.  Every step keeps this.
-/
import YakKernel.ProcTree

namespace ProcTree

open Function

/-! ## Places and locks -/

/-- Where a process can be. -/
inductive Place
  | list (p : ℕ)
  | hand (t : ℕ)
  deriving DecidableEq

/-- The processes that are on no list because of the thread. -/
def Thread.hands : Thread → List ℕ
  | .forking child => [child]
  | .reaping z => [z]
  | .destroying z => [z]
  | .moving z child => [child, z]
  | .freeing z => [z]
  | _ => []

/-- The new process that the thread has not started yet. -/
def Thread.unstarted : Thread → Option ℕ
  | .forking child => some child
  | .inserted child => some child
  | _ => none

/-- The processes whose lists the thread of `t` has locked. -/
def Thread.locks (t : ℕ) : Thread → List ℕ
  | .scanning _ _ _ => [t]
  | .reaping _ => [t]
  | .destroying z => [z, t]
  | .moving z _ => [z, t]
  | .freeing _ => [t]
  | _ => []

namespace State

variable (s : State)

def places : Place → List ℕ
  | .list p => s.childList p
  | .hand t => ((s.threads t).map Thread.hands).getD []

def locks (t : ℕ) : List ℕ := ((s.threads t).map (Thread.locks t)).getD []

/-- `p` is the parent of `c`. -/
def Named (c p : ℕ) : Prop := s.parentProcess c = some p ∧ s.ppid c = p

/-- A process that has not had a thread. -/
structure Unstarted (c : ℕ) : Prop where
  alive : s.state c = .alive
  noThread : s.threads c = none
  noExited : s.exited c = 0

end State

/-- What a thread of `t` relies on. -/
def Thread.Ok (s : State) (t : ℕ) : Thread → Prop
  | .forking child => s.Unstarted child ∧ s.Named child t
  | .inserted child => s.Unstarted child ∧ child ∈ s.childList t
  | .scanning _ rest _ => rest ⊆ s.childList t
  | .reaping z => s.state z = .zombie
  | .destroying z => s.state z = .zombie
  | .moving z child => s.state z = .zombie ∧ s.Named child 1
  | .freeing z => s.state z = .zombie ∧ s.childList z = []
  | _ => True

/-- What holds in every state, with the place of every process. -/
structure Inv (s : State) (place : ℕ → Option Place) : Prop where
  fresh : ∀ p, s.nextPid ≤ p → s.pidTable p = false
  vacant : ∀ p, s.pidTable p = false → s.threads p = none ∧ s.exited p = 0 ∧ s.childList p = []
  kernel : s.pidTable 0 = true ∧ s.threads 0 = none ∧ s.exited 0 = 0 ∧ s.state 0 = .alive
  init : s.pidTable 1 = true ∧ s.state 1 = .alive
  reaped : ∀ p, p ∈ s.reaped ↔ p < s.nextPid ∧ s.pidTable p = false
  reapedNodup : s.reaped.Nodup
  counts : ∀ p, p ≠ 0 → s.threadCount p = s.exited p + (if (s.threads p).isSome then 1 else 0)
  zombie : ∀ p, s.state p = .zombie → s.threadCount p = 0
  places : Roster.Lists place s.places
  placed : ∀ c, (place c).isSome ↔ c ≠ 0 ∧ s.pidTable c = true
  named : ∀ c p, place c = some (.list p) → s.Named c p
  locked : Roster.Lists s.childListLock s.locks
  progress : ∀ t thread, s.threads t = some thread → thread.Ok s t
  stopped : ∀ why, s.halt = some why → why = .ownLock ∨ why = .killInit ∨ why = .execThreads

variable {s s' : State} {place : ℕ → Option Place} {t u p c z : ℕ} {thread thread' : Thread}

/-! ## Acquisitions -/

/-- An acquisition that does not wait finds the lock free, or stops the kernel. -/
theorem State.guarded_eq_some {next : State → State} (hs : s.guarded t p next = some s') :
    (s.childListLock p = none ∧ s' = next s) ∨
    (s.childListLock p = some t ∧ s' = s.stop .ownLock) := by
  unfold State.guarded at hs
  split at hs
  · next howner => exact .inl ⟨howner, (Option.some.inj hs).symm⟩
  · next owner howner =>
    by_cases hown : owner = t
    · rw [if_pos hown, Option.some.injEq] at hs
      exact .inr ⟨hown ▸ howner, hs.symm⟩
    · simp [hown] at hs

theorem State.acquire_eq_some {next : State → State} (hs : s.acquire t p next = some s') :
    (s.childListLock p = none ∧
      s' = next { s with childListLock := update s.childListLock p (some t) }) ∨
    (s.childListLock p = some t ∧ s' = s.stop .ownLock) :=
  @State.guarded_eq_some s s' t p
    (fun s => next { s with childListLock := update s.childListLock p (some t) }) hs

/-! ## Updates of places and locks -/

theorem places_setChildList (s : State) (p : ℕ) (l : List ℕ) :
    (s.setChildList p l).places = update s.places (.list p) l := by
  funext k
  cases k with
  | list q => by_cases hq : q = p <;> simp [State.places, State.setChildList, hq]
  | hand t => simp [State.places, State.setChildList]

theorem places_setThread (s : State) (t : ℕ) (thread : Option Thread) :
    (s.setThread t thread).places =
      update s.places (.hand t) ((thread.map Thread.hands).getD []) := by
  funext k
  cases k with
  | list q => simp [State.places, State.setThread]
  | hand u => by_cases hu : u = t <;> simp [State.places, State.setThread, hu]

theorem locks_setThread (s : State) (t : ℕ) (thread : Option Thread) :
    (s.setThread t thread).locks = update s.locks t ((thread.map (Thread.locks t)).getD []) := by
  funext u
  by_cases hu : u = t
  · subst hu
    simp [State.locks, State.setThread]
  · simp [State.locks, State.setThread, hu]

theorem Thread.unstarted_eq_some :
    thread.unstarted = some c ↔ thread = .forking c ∨ thread = .inserted c := by
  cases thread <;> simp [Thread.unstarted]

theorem Thread.eq_or_mem_hands (hp : p ∈ thread.locks t) : p = t ∨ p ∈ thread.hands := by
  cases thread <;> simp [Thread.locks, Thread.hands] at hp ⊢ <;> tauto

theorem places_hand (ht : s.threads t = some thread) : s.places (.hand t) = thread.hands := by
  simp [State.places, ht]

theorem locks_thread (ht : s.threads t = some thread) : s.locks t = thread.locks t := by
  simp [State.locks, ht]

/-! ## What the invariant says -/

theorem State.Unstarted.ne (h : s.Unstarted c) (ht : s.threads t = some thread) : c ≠ t := by
  rintro rfl
  simp [h.noThread] at ht

namespace Inv

theorem allocated (h : Inv s place) (ht : s.threads t = some thread) : s.pidTable t = true := by
  by_contra hp
  rw [Bool.not_eq_true] at hp
  simp [(h.vacant t hp).1] at ht

theorem ne_zero (h : Inv s place) (ht : s.threads t = some thread) : t ≠ 0 := by
  rintro rfl
  simp [h.kernel.2.1] at ht

theorem ne_nextPid (h : Inv s place) (hp : s.pidTable p = true) : p ≠ s.nextPid := by
  rintro rfl
  simp [h.fresh s.nextPid le_rfl] at hp

theorem alive_of_count (h : Inv s place) (hp : s.threadCount p ≠ 0) : s.state p = .alive := by
  cases hstate : s.state p with
  | alive => rfl
  | zombie => exact absurd (h.zombie p hstate) hp

theorem alive (h : Inv s place) (ht : s.threads t = some thread) : s.state t = .alive := by
  apply h.alive_of_count
  rw [h.counts t (h.ne_zero ht), ht]
  simp

theorem threads_of_zombie (h : Inv s place) (hz : s.state z = .zombie) :
    s.threads z = none ∧ s.exited z = 0 := by
  have hne : z ≠ 0 := by
    rintro rfl
    simp [h.kernel.2.2.2] at hz
  have hcount := h.counts z hne
  rw [h.zombie z hz] at hcount
  cases hthread : s.threads z with
  | none =>
    rw [hthread] at hcount
    exact ⟨rfl, by simpa using hcount.symm⟩
  | some thread => simp [hthread] at hcount

theorem zombie_ne (h : Inv s place) (hz : s.state z = .zombie) (ht : s.threads t = some thread) :
    z ≠ t := by
  rintro rfl
  simp [(h.threads_of_zombie hz).1] at ht

theorem zombie_ne_one (h : Inv s place) (hz : s.state z = .zombie) : z ≠ 1 := by
  rintro rfl
  simp [h.init.2] at hz

theorem place_hand (h : Inv s place) (ht : s.threads t = some thread) (hc : c ∈ thread.hands) :
    place c = some (.hand t) := by
  rw [← h.places.mem_list_iff, places_hand ht]
  exact hc

theorem place_list (h : Inv s place) (hc : c ∈ s.childList p) : place c = some (.list p) :=
  h.places.mem_list_iff.1 hc

theorem mem_childList (h : Inv s place) (hc : place c = some (.list p)) : c ∈ s.childList p :=
  h.places.mem_list_iff.2 hc

theorem pidTable_of_place (h : Inv s place) {k : Place} (hc : place c = some k) :
    c ≠ 0 ∧ s.pidTable c = true := by
  rw [← h.placed, hc]
  rfl

theorem pidTable_of_list (h : Inv s place) (hc : place c = some (.list p)) :
    s.pidTable p = true := by
  by_contra hp
  rw [Bool.not_eq_true] at hp
  have hmem := h.mem_childList hc
  simp [(h.vacant p hp).2.2] at hmem

theorem allocated_of_hands (h : Inv s place) (ht : s.threads t = some thread)
    (hc : c ∈ thread.hands) : s.pidTable c = true :=
  (h.pidTable_of_place (h.place_hand ht hc)).2

theorem allocated_of_lock (h : Inv s place) (hlock : s.childListLock p = some t) :
    s.pidTable p = true := by
  have hmem : p ∈ s.locks t := h.locked.mem_list_iff.2 hlock
  cases hthread : s.threads t with
  | none => simp [State.locks, hthread] at hmem
  | some thread =>
    rw [locks_thread hthread] at hmem
    rcases Thread.eq_or_mem_hands hmem with rfl | hhand
    · exact h.allocated hthread
    · exact h.allocated_of_hands hthread hhand

/-- A new process is in the hands or on the list of the thread that starts it. -/
theorem unstarted_place (h : Inv s place) (ht : s.threads t = some thread)
    (hc : thread.unstarted = some c) :
    place c = some (.hand t) ∨ place c = some (.list t) := by
  have hok := h.progress t thread ht
  rcases Thread.unstarted_eq_some.1 hc with rfl | rfl
  · exact .inl (h.place_hand ht (by simp [Thread.hands]))
  · exact .inr (h.place_list hok.2)

theorem allocated_of_unstarted (h : Inv s place) (ht : s.threads t = some thread)
    (hc : thread.unstarted = some c) : s.pidTable c = true := by
  rcases h.unstarted_place ht hc with hplace | hplace
  · exact (h.pidTable_of_place hplace).2
  · exact (h.pidTable_of_place hplace).2

end Inv

/-- **Frame.** What a thread relies on, in a state that differs elsewhere. -/
theorem Thread.Ok.frame (h : thread.Ok s u)
    (hstart : ∀ c, thread.unstarted = some c → s.Unstarted c → s'.Unstarted c)
    (hnamed : ∀ c p, c ∈ thread.hands → s.Named c p → s'.Named c p)
    (hzombie : ∀ z, z ∈ thread.hands → s.state z = .zombie → s'.state z = .zombie)
    (hlist : s.childList u ⊆ s'.childList u)
    (hempty : ∀ z, z ∈ thread.hands → s.state z = .zombie → s.childList z = [] →
      s'.childList z = []) : thread.Ok s' u := by
  cases thread with
  | user => trivial
  | forking child =>
    exact ⟨hstart child rfl h.1, hnamed child u (by simp [Thread.hands]) h.2⟩
  | inserted child => exact ⟨hstart child rfl h.1, hlist h.2⟩
  | locking req => trivial
  | scanning req rest found => exact fun c hc => hlist (h hc)
  | waitNext req => trivial
  | waiting req => trivial
  | reaping z => exact hzombie z (by simp [Thread.hands]) h
  | destroying z => exact hzombie z (by simp [Thread.hands]) h
  | moving z child =>
    exact ⟨hzombie z (by simp [Thread.hands]) h.1, hnamed child 1 (by simp [Thread.hands]) h.2⟩
  | freeing z =>
    exact ⟨hzombie z (by simp [Thread.hands]) h.1, hempty z (by simp [Thread.hands]) h.1 h.2⟩

theorem State.Unstarted.setThread (h : s.Unstarted c) (hc : c ≠ t) (x : Option Thread) :
    (s.setThread t x).Unstarted c := by
  refine ⟨h.alive, ?_, h.noExited⟩
  simp only [State.setThread]
  rw [update_of_ne hc]
  exact h.noThread

namespace Inv

/-! ## Steps that change one place -/

theorem advance (h : Inv s place) (ht : s.threads t = some thread)
    (hhands : thread'.hands = thread.hands) {lock : ℕ → Option ℕ}
    (hlock : Roster.Lists lock (update s.locks t (thread'.locks t)))
    (hok : thread'.Ok s t) :
    Inv ({ s with childListLock := lock }.setThread t (some thread')) place where
  fresh := h.fresh
  vacant := by
    intro p hp
    have hne : p ≠ t := by
      rintro rfl
      simp [h.allocated ht, State.setThread] at hp
    simp only [State.setThread]
    rw [update_of_ne hne]
    exact h.vacant p hp
  kernel := by
    simp only [State.setThread]
    rw [update_of_ne (h.ne_zero ht).symm]
    exact h.kernel
  init := h.init
  reaped := h.reaped
  reapedNodup := h.reapedNodup
  counts := by
    intro p hp
    have hcount := h.counts p hp
    by_cases hpt : p = t
    · subst hpt
      simpa [State.setThread, ht] using hcount
    · simpa [State.setThread, hpt] using hcount
  zombie := h.zombie
  places := by
    rw [places_setThread]
    have hsame : s.places (.hand t) = ((some thread').map Thread.hands).getD [] := by
      rw [places_hand ht]
      exact hhands.symm
    have hplaces : ({ s with childListLock := lock } : State).places = s.places := by
      funext k
      cases k <;> rfl
    rw [hplaces, ← hsame, update_eq_self]
    exact h.places
  placed := h.placed
  named := h.named
  locked := by
    rw [locks_setThread]
    exact hlock
  progress := by
    intro u thread₁ hu
    have hstart : ∀ c, s.Unstarted c →
        ({ s with childListLock := lock }.setThread t (some thread')).Unstarted c := by
      intro c hc
      have hc' : ({ s with childListLock := lock } : State).Unstarted c := ⟨hc.1, hc.2, hc.3⟩
      exact hc'.setThread (hc.ne ht) _
    have hframe : thread₁.Ok s u → thread₁.Ok
        ({ s with childListLock := lock }.setThread t (some thread')) u := fun hok =>
      hok.frame (fun c _ => hstart c) (fun _ _ _ hc => hc) (fun _ _ hz => hz)
        (List.Subset.refl _) (fun _ _ _ hz => hz)
    by_cases hut : u = t
    · subst hut
      obtain rfl : thread' = thread₁ := by simpa [State.setThread] using hu
      exact hframe hok
    · refine hframe (h.progress u thread₁ ?_)
      simpa [State.setThread, hut] using hu
  stopped := h.stopped

theorem setThread (h : Inv s place) (ht : s.threads t = some thread)
    (hhands : thread'.hands = thread.hands) (hlocks : thread'.locks t = thread.locks t)
    (hok : thread'.Ok s t) : Inv (s.setThread t (some thread')) place := by
  refine h.advance ht hhands ?_ hok
  rw [hlocks, ← locks_thread ht, update_eq_self]
  exact h.locked

theorem lock (h : Inv s place) (ht : s.threads t = some thread)
    (hhands : thread'.hands = thread.hands) (hfree : s.childListLock p = none)
    (hlocks : thread'.locks t = p :: thread.locks t) (hok : thread'.Ok s t) :
    Inv ({ s with childListLock := update s.childListLock p (some t) }.setThread t
      (some thread')) place := by
  refine h.advance ht hhands ?_ hok
  rw [hlocks, ← locks_thread ht]
  exact h.locked.insert hfree

theorem unlock (h : Inv s place) (ht : s.threads t = some thread)
    (hhands : thread'.hands = thread.hands) (hlocks : thread.locks t = p :: thread'.locks t)
    (hok : thread'.Ok s t) :
    Inv ({ s with childListLock := update s.childListLock p none }.setThread t
      (some thread')) place := by
  refine h.advance ht hhands ?_ hok
  have howner : s.childListLock p = some t := by
    rw [← h.locked.mem_list_iff, locks_thread ht, hlocks]
    exact List.mem_cons_self
  have hremove := h.locked.remove howner
  rw [locks_thread ht, hlocks, List.erase_cons_head] at hremove
  exact hremove

theorem owner_eq (h : Inv s place) (ht : s.threads t = some thread) (hp : p ∈ thread.locks t) :
    s.childListLock p = some t := by
  rw [← h.locked.mem_list_iff, locks_thread ht]
  exact hp

theorem owner_ne (h : Inv s place) (ht : s.threads t = some thread) (hp : p ∉ thread.locks t) :
    s.childListLock p ≠ some t := by
  intro howner
  rw [← h.locked.mem_list_iff, locks_thread ht] at howner
  exact hp howner

/-- A thread changes what it has in its hands, the list of `p` and the parents. -/
theorem relink (h : Inv s place) (ht : s.threads t = some thread) (next : Thread) (l : List ℕ)
    (parent : ℕ → Option ℕ) (ppid : ℕ → ℕ) {place' : ℕ → Option Place}
    (hp : s.pidTable p = true) (hlocks : next.locks t = thread.locks t)
    (hplaces : Roster.Lists place'
      (update (update s.places (.list p) l) (.hand t) next.hands))
    (hplaced : ∀ c, (place' c).isSome = (place c).isSome)
    (hnamed : ∀ c q, place' c = some (.list q) → parent c = some q ∧ ppid c = q)
    (hothers : ∀ u thread₁, u ≠ t → s.threads u = some thread₁ →
      s.childList u ⊆ update s.childList p l u ∧
      ∀ c q, c ∈ thread₁.hands → s.Named c q → parent c = some q ∧ ppid c = q)
    (hempty : ∀ z, s.state z = .zombie → s.childList z = [] → update s.childList p l z = [])
    (hok : next.Ok { s.setChildList p l with ppid := ppid, parentProcess := parent } t) :
    Inv ({ s.setChildList p l with ppid := ppid, parentProcess := parent }.setThread t
      (some next)) place' where
  fresh := h.fresh
  vacant := by
    intro q hq
    have hqt : q ≠ t := by
      rintro rfl
      simp [h.allocated ht, State.setThread, State.setChildList] at hq
    have hqp : q ≠ p := by
      rintro rfl
      simp [hp, State.setThread, State.setChildList] at hq
    simp only [State.setThread, State.setChildList]
    rw [update_of_ne hqt, update_of_ne hqp]
    exact h.vacant q hq
  kernel := by
    simp only [State.setThread, State.setChildList]
    rw [update_of_ne (h.ne_zero ht).symm]
    exact h.kernel
  init := h.init
  reaped := h.reaped
  reapedNodup := h.reapedNodup
  counts := by
    intro q hq
    have hcount := h.counts q hq
    by_cases hqt : q = t
    · subst hqt
      simpa [State.setThread, State.setChildList, ht] using hcount
    · simpa [State.setThread, State.setChildList, hqt] using hcount
  zombie := h.zombie
  places := by
    have hsame : ({ s.setChildList p l with ppid := ppid, parentProcess := parent } :
        State).places = update s.places (.list p) l := by
      rw [← places_setChildList]
      funext k
      cases k <;> rfl
    rw [places_setThread, hsame]
    exact hplaces
  placed := fun q => by
    rw [hplaced]
    exact h.placed q
  named := hnamed
  locked := by
    rw [locks_setThread]
    have hsame : ({ s.setChildList p l with ppid := ppid, parentProcess := parent } :
        State).locks = s.locks := rfl
    rw [hsame, Option.map_some, Option.getD_some, hlocks, ← locks_thread ht, update_eq_self]
    exact h.locked
  progress := by
    intro u thread₁ hu
    have hstart : ∀ d, s.Unstarted d →
        ({ s.setChildList p l with ppid := ppid, parentProcess := parent }.setThread t
          (some next)).Unstarted d := by
      intro d hd
      have hd' : ({ s.setChildList p l with ppid := ppid, parentProcess := parent } :
          State).Unstarted d := ⟨hd.1, hd.2, hd.3⟩
      exact hd'.setThread (hd.ne ht) _
    by_cases hut : u = t
    · subst hut
      obtain rfl : next = thread₁ := by simpa [State.setThread] using hu
      exact hok.frame (fun d _ hd => hstart d ⟨hd.1, hd.2, hd.3⟩) (fun _ _ _ hd => hd)
        (fun _ _ hz => hz) (List.Subset.refl _) (fun _ _ _ hz => hz)
    · rw [State.setThread] at hu
      simp only [update_of_ne hut] at hu
      obtain ⟨hlist, hthread⟩ := hothers u thread₁ hut hu
      exact (h.progress u thread₁ hu).frame (fun d _ hd => hstart d hd) hthread
        (fun _ _ hz => hz) hlist (fun z _ hz hnil => hempty z hz hnil)
  stopped := h.stopped

theorem put (h : Inv s place) (ht : s.threads t = some thread)
    (hhands : thread.hands = c :: thread'.hands) (hlocks : thread'.locks t = thread.locks t)
    (hnamed : s.Named c p) (hp : s.pidTable p = true) (halive : s.state p = .alive)
    (hok : thread'.Ok (s.setChildList p (c :: s.childList p)) t) :
    Inv ((s.setChildList p (c :: s.childList p)).setThread t (some thread'))
      (update place c (some (.list p))) := by
  have hc : place c = some (.hand t) := h.place_hand ht (by simp [hhands])
  refine h.relink ht thread' _ s.parentProcess s.ppid hp hlocks ?_ ?_ ?_ ?_ ?_ hok
  · have htransfer := h.places.transfer hc (k := .list p) (by simp)
    rw [places_hand ht, hhands, List.erase_cons_head] at htransfer
    rw [update_comm (by simp)]
    exact htransfer
  · intro q
    by_cases hq : q = c
    · subst hq
      simp [hc]
    · rw [update_of_ne hq]
  · intro q k hq
    by_cases hqc : q = c
    · subst hqc
      rw [update_self] at hq
      obtain rfl : p = k := by simpa using hq
      exact hnamed
    · rw [update_of_ne hqc] at hq
      exact h.named q k hq
  · intro u _ _ _
    refine ⟨fun d hd => ?_, fun _ _ _ hd => hd⟩
    by_cases hup : u = p
    · subst hup
      simp [hd]
    · simpa [hup] using hd
  · intro z hz hempty
    have hzp : z ≠ p := by
      rintro rfl
      simp [halive] at hz
    simpa [hzp] using hempty

/-- A thread takes a process from a list, its own or that of a process without threads, and may
change the parent of the process. -/
theorem take (h : Inv s place) (ht : s.threads t = some thread) (next : Thread)
    (parent : ℕ → Option ℕ) (ppid : ℕ → ℕ)
    (hhands : next.hands = c :: thread.hands) (hlocks : next.locks t = thread.locks t)
    (hc : place c = some (.list p)) (hp : p = t ∨ s.threads p = none)
    (hparent : ∀ d, d ≠ c → parent d = s.parentProcess d)
    (hppid : ∀ d, d ≠ c → ppid d = s.ppid d)
    (hok : next.Ok { s.setChildList p ((s.childList p).erase c) with
      ppid := ppid
      parentProcess := parent } t) :
    Inv ({ s.setChildList p ((s.childList p).erase c) with
      ppid := ppid
      parentProcess := parent }.setThread t (some next)) (update place c (some (.hand t))) := by
  have hsame : ∀ d q, d ≠ c → s.Named d q → parent d = some q ∧ ppid d = q :=
    fun d q hdc hd => ⟨(hparent d hdc).trans hd.1, (hppid d hdc).trans hd.2⟩
  refine h.relink ht next _ parent ppid (h.pidTable_of_list hc) hlocks ?_ ?_ ?_ ?_ ?_ hok
  · have htransfer := h.places.transfer hc (k := .hand t) (by simp)
    rw [places_hand ht] at htransfer
    rw [hhands]
    exact htransfer
  · intro q
    by_cases hq : q = c
    · subst hq
      simp [hc]
    · rw [update_of_ne hq]
  · intro q k hq
    by_cases hqc : q = c
    · subst hqc
      simp at hq
    · rw [update_of_ne hqc] at hq
      exact hsame q k hqc (h.named q k hq)
  · intro u thread₁ hut hu
    have hup : u ≠ p := by
      rintro rfl
      rcases hp with rfl | hp
      · exact hut rfl
      · simp [hp] at hu
    refine ⟨by simp [hup], fun d q hd hdq => hsame d q ?_ hdq⟩
    -- what the other thread has in its hands is not on the list
    rintro rfl
    simp [h.place_hand hu hd] at hc
  · intro z _ hempty
    by_cases hzp : z = p
    · subst hzp
      simp [hempty]
    · simpa [hzp] using hempty

end Inv

end ProcTree
