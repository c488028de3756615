import ChainRead.Proofs.Cache.Operations
import Mathlib.Data.List.Induction

/-! # The history of a cache

Whatever happens to a cache is a list of events. A wait stands where its fetch ends, after what
happens while the fetch is under way. Every fetch goes back to the one request that started it, and
an entry for the fetch is the one which that request made: it was neither removed nor replaced.
-/

namespace ChainRead

namespace Cache

inductive Event (K J : Type)
  | get (key : K) (job : J)
  | await (id : Nat)
  | peek (key : K)
  | remove (key : K)
  | clear
  | advance (ms : Nat)

/-- A cache with the clock it reads and the state that its jobs have outside of it. -/
structure Timed (σ K J V : Type) where
  outside : σ
  clock : Nat
  cache : Cache K J V

variable {σ K J V : Type}

structure Request (K J : Type) where
  before : List (Event K J)
  key : K
  job : J
  since : List (Event K J)

namespace Request

def events (r : Request K J) : List (Event K J) := r.before ++ .get r.key r.job :: r.since

def later (r : Request K J) (event : Event K J) : Request K J :=
  { r with since := r.since ++ [event] }

theorem events_made (before : List (Event K J)) (key : K) (job : J) :
    events ⟨before, key, job, []⟩ = before ++ [.get key job] := rfl

@[simp] theorem events_later (r : Request K J) (event : Event K J) :
    (r.later event).events = r.events ++ [event] := by
  simp [later, events]

/-- What is true of a request when it is made and remains so is true at any later time. -/
@[elab_as_elim]
theorem since_induction {motive : Request K J → Prop}
    (made : ∀ before key job, motive ⟨before, key, job, []⟩)
    (later : ∀ r event, motive r → motive (r.later event)) (r : Request K J) : motive r := by
  obtain ⟨before, key, job, since⟩ := r
  induction since using List.reverseRecOn with
  | nil => exact made before key job
  | append_singleton since event ih => exact later ⟨before, key, job, since⟩ event ih

theorem order {r r' : Request K J} (h : r.events = r'.events) :
    r = r' ∨ (∃ mid, r'.before = r.before ++ .get r.key r.job :: mid) ∨
      ∃ mid, r.before = r'.before ++ .get r'.key r'.job :: mid := by
  obtain ⟨before, key, job, since⟩ := r
  obtain ⟨before', key', job', since'⟩ := r'
  rcases List.append_eq_append_iff.mp h with ⟨mid, hb, hm⟩ | ⟨mid, hb, hm⟩ <;>
    rcases mid with _ | ⟨event, mid⟩ <;> cases hm
  · exact Or.inl (by simpa using hb.symm)
  · exact Or.inr (Or.inl ⟨mid, hb⟩)
  · exact Or.inl (by simpa using hb)
  · exact Or.inr (Or.inr ⟨mid, hb⟩)

end Request

namespace Timed

def new (config : CacheConfig) (outside : σ) (clock : Nat) : Timed σ K J V :=
  ⟨outside, clock, { config }⟩

/-- Entries have fetches, and are for different keys. -/
structure Proper (t : Timed σ K J V) : Prop where
  fetches : ∀ e ∈ t.cache.entries, e.fetch < t.cache.fetches.size
  keys : (t.cache.entries.map CacheEntry.key).Nodup

theorem Proper.new (config : CacheConfig) (outside : σ) (clock : Nat) :
    (new config outside clock : Timed σ K J V).Proper :=
  ⟨nofun, List.nodup_nil⟩

end Timed

variable [DecidableEq K]

namespace Timed

variable (run : J → Fallible BackingError σ V)

def next (t : Timed σ K J V) : Event K J → Timed σ K J V
  | .get key job => { t with cache := (t.cache.get t.clock key job).2 }
  | .await id =>
    let (outside, cache) := (Cache.await run id (t.outside, t.cache)).2
    { t with outside, cache }
  | .peek _ => t
  | .remove key => { t with cache := t.cache.remove key }
  | .clear => { t with cache := t.cache.clear }
  | .advance ms => { t with clock := t.clock + ms }

def after (t : Timed σ K J V) (events : List (Event K J)) : Timed σ K J V :=
  events.foldl (next run) t

variable {run} {t : Timed σ K J V} {event : Event K J} {events : List (Event K J)}

@[simp] theorem after_nil : t.after run [] = t := rfl

@[simp] theorem after_append (events rest : List (Event K J)) :
    t.after run (events ++ rest) = (t.after run events).after run rest :=
  List.foldl_append

@[simp] theorem after_cons (event : Event K J) (events : List (Event K J)) :
    t.after run (event :: events) = (t.next run event).after run events := rfl

/-! ## One event -/

theorem next_await (run : J → Fallible BackingError σ V) (t : Timed σ K J V) (id : Nat) :
    ¬t.cache.Outstanding id ∧ t.next run (.await id) = t ∨
    ∃ f, t.cache.fetches[id]? = some f ∧ f.outcome = none ∧ t.next run (.await id) =
      ⟨(run f.job t.outside).2, t.clock, t.cache.complete id (run f.job t.outside).1⟩ := by
  rcases await_cases run id t.outside t.cache with ⟨h, heq⟩ | ⟨f, hf, ho, heq⟩
  · exact Or.inl ⟨h, by simp only [next, heq]⟩
  · exact Or.inr ⟨f, hf, ho, by simp only [next, heq]⟩

inductive Effect (run : J → Fallible BackingError σ V) (t : Timed σ K J V) :
    Event K J → Cache K J V → Prop
  | nothing {event : Event K J} (hr : ∀ key, event ≠ .remove key) (hc : event ≠ .clear) :
      Effect run t event t.cache
  | start {key : K} {job : J} (hx : ∀ e, t.cache.find? key = some e → e.expires ≤ t.clock)
      (heq : t.cache.get t.clock key job = t.cache.start t.clock key job) :
      Effect run t (.get key job) (t.cache.start t.clock key job).2
  | finish {id : Nat} {f : Fetch K J V} (hf : t.cache.fetches[id]? = some f)
      (ho : f.outcome = none) :
      Effect run t (.await id) (t.cache.complete id (run f.job t.outside).1)
  | remove (key : K) : Effect run t (.remove key) (t.cache.remove key)
  | clear : Effect run t .clear t.cache.clear

theorem next_effect (run : J → Fallible BackingError σ V) (t : Timed σ K J V) (event : Event K J) :
    t.Effect run event (t.next run event).cache := by
  cases event with
  | get key job =>
    rcases t.cache.get_cases t.clock key job with ⟨_, _, _, _, heq⟩ | ⟨hx, heq⟩ <;>
      simp only [next, heq]
    · exact .nothing nofun nofun
    · exact .start hx heq
  | await id =>
    rcases t.next_await run id with ⟨_, heq⟩ | ⟨f, hf, ho, heq⟩ <;> rw [heq]
    · exact .nothing nofun nofun
    · exact .finish hf ho
  | remove key => exact .remove key
  | clear => exact .clear
  | peek | advance => exact .nothing nofun nofun

theorem clock_le_next : t.clock ≤ (t.next run event).clock := by
  cases event with
  | advance ms => exact Nat.le_add_right _ _
  | get | await | peek | remove | clear => exact Nat.le_refl _

namespace Effect

variable {c : Cache K J V} (h : t.Effect run event c)
include h

theorem config : c.config = t.cache.config := by
  cases h with
  | finish => exact complete_config
  | nothing | start | remove | clear => rfl

theorem mem_entries {e : CacheEntry K} (he : e ∈ c.entries) :
    e ∈ t.cache.entries ∧ event ≠ .remove e.key ∧ event ≠ .clear ∨
    ∃ key job, event = .get key job ∧ t.cache.get t.clock key job = t.cache.start t.clock key job ∧
      e = t.cache.entryAt t.clock key := by
  cases h with
  | nothing hr hc => exact Or.inl ⟨he, hr _, hc⟩
  | @start key job _ heq =>
    rcases mem_start_entries.mp he with rfl | ⟨he, -⟩
    · exact Or.inr ⟨key, job, rfl, heq, rfl⟩
    · exact Or.inl ⟨mem_of_mem_makeRoom he, nofun, nofun⟩
  | finish => exact Or.inl ⟨mem_of_mem_complete he, nofun, nofun⟩
  | remove key =>
    obtain ⟨he, hk⟩ : e ∈ t.cache.entries ∧ e.key ≠ key := by simpa [Cache.remove] using he
    exact Or.inl ⟨he, by simpa using Ne.symm hk, nofun⟩
  | clear => cases he

theorem fetch {id : Nat} {f : Fetch K J V} (hf : t.cache.fetches[id]? = some f) :
    ∃ f', c.fetches[id]? = some f' ∧ f'.key = f.key ∧ f'.job = f.job ∧
      (f' = f ∨
        event = .await id ∧ f.outcome = none ∧ f'.outcome = some (run f.job t.outside).1) := by
  cases h with
  | start => exact ⟨f, getElem?_start_fetches hf, rfl, rfl, Or.inl rfl⟩
  | @finish i g hg ho =>
    rw [complete_fetches, Array.getElem?_modify, hf]
    by_cases hi : i = id
    · subst hi
      obtain rfl : g = f := Option.some.inj (hg.symm.trans hf)
      exact ⟨{ g with outcome := some (run g.job t.outside).1 }, by simp, rfl, rfl,
        Or.inr ⟨rfl, ho, rfl⟩⟩
    · exact ⟨f, by simp [hi], rfl, rfl, Or.inl rfl⟩
  | nothing | remove | clear => exact ⟨f, hf, rfl, rfl, Or.inl rfl⟩

theorem outstanding {id : Nat} (hid : id < t.cache.fetches.size) (ho : c.Outstanding id) :
    t.cache.Outstanding id := by
  obtain ⟨f, hf⟩ : ∃ f, t.cache.fetches[id]? = some f := ⟨_, Array.getElem?_eq_getElem hid⟩
  obtain ⟨f', hf', -, -, hc⟩ := h.fetch hf
  obtain ⟨g, hg, hn⟩ := ho
  obtain rfl : g = f' := Option.some.inj (hg.symm.trans hf')
  rcases hc with rfl | ⟨-, -, ho⟩
  · exact ⟨g, hf, hn⟩
  · cases hn.symm.trans ho

theorem size : c.fetches.size = t.cache.fetches.size ∨
    ∃ key job, event = .get key job ∧ t.cache.get t.clock key job = t.cache.start t.clock key job ∧
      c.fetches.size = t.cache.fetches.size + 1 := by
  cases h with
  | @start key job _ heq => exact Or.inr ⟨key, job, rfl, heq, by simp⟩
  | finish => exact Or.inl (by simp)
  | nothing | remove | clear => exact Or.inl rfl

theorem size_le : t.cache.fetches.size ≤ c.fetches.size := by
  rcases h.size with hs | ⟨_, _, _, _, hs⟩ <;> omega

theorem keys (hk : (t.cache.entries.map CacheEntry.key).Nodup) :
    (c.entries.map CacheEntry.key).Nodup := by
  cases h with
  | nothing => exact hk
  | @start key =>
    have hs := (List.filter_sublist (p := fun e => e.key != key)).trans
      (t.cache.makeRoom_sublist t.clock)
    rw [start_entries, List.map_cons, List.nodup_cons]
    exact ⟨by simp [entryAt], hk.sublist (hs.map _)⟩
  | finish => exact hk.sublist ((t.cache.complete_sublist _ _).map _)
  | remove => exact hk.sublist (List.filter_sublist.map _)
  | clear => exact List.nodup_nil

end Effect

theorem Proper.next (h : t.Proper) (run : J → Fallible BackingError σ V) (event : Event K J) :
    (t.next run event).Proper where
  fetches e he := by
    have effect := t.next_effect run event
    rcases effect.mem_entries he with ⟨he, -, -⟩ | ⟨key, job, rfl, heq, rfl⟩
    · exact Nat.lt_of_lt_of_le (h.fetches e he) effect.size_le
    · simp [Timed.next, heq, entryAt]
  keys := (t.next_effect run event).keys h.keys

/-! ## Histories -/

theorem Proper.after (h : t.Proper) (run : J → Fallible BackingError σ V)
    (events : List (Event K J)) : (t.after run events).Proper := by
  induction events generalizing t with
  | nil => exact h
  | cons event events ih => exact ih (h.next run event)

@[simp] theorem after_config : (t.after run events).cache.config = t.cache.config := by
  induction events generalizing t with
  | nil => rfl
  | cons event events ih => exact ih.trans (t.next_effect run event).config

theorem outstanding_of_after {id : Nat} (hid : id < t.cache.fetches.size)
    (h : (t.after run events).cache.Outstanding id) : t.cache.Outstanding id := by
  induction events generalizing t with
  | nil => exact h
  | cons event events ih =>
    have effect := t.next_effect run event
    exact effect.outstanding hid (ih (Nat.lt_of_lt_of_le hid effect.size_le) h)

end Timed

namespace Request

variable (run : J → Fallible BackingError σ V) (s : Timed σ K J V) (r : Request K J)

def arrival : Timed σ K J V := s.after run r.before

def entry : CacheEntry K := (r.arrival run s).cache.entryAt (r.arrival run s).clock r.key

/-- The request starts the fetch with this number. -/
structure Starts (id : Nat) : Prop where
  number : (r.arrival run s).cache.fetches.size = id
  started : (r.arrival run s).cache.get (r.arrival run s).clock r.key r.job =
    (r.arrival run s).cache.start (r.arrival run s).clock r.key r.job

/-- The fetch with this number ended since the request, as the request's job did then. -/
def Ended (id : Nat) (o : Except BackingError V) : Prop :=
  ∃ first last, r.since = first ++ .await id :: last ∧
    (run r.job (s.after run { r with since := first }.events).outside).1 = o

variable {run s r} {id : Nat} {event : Event K J}

theorem Starts.later (h : r.Starts run s id) (event : Event K J) :
    (r.later event).Starts run s id :=
  ⟨h.number, h.started⟩

theorem Starts.earlier (h : (r.later event).Starts run s id) : r.Starts run s id :=
  ⟨h.number, h.started⟩

theorem Ended.later {o : Except BackingError V} (h : r.Ended run s id o) (event : Event K J) :
    (r.later event).Ended run s id o := by
  obtain ⟨first, last, hs, ho⟩ := h
  exact ⟨first, last ++ [event], by simp [Request.later, hs], ho⟩

theorem after_later :
    s.after run (r.later event).events = (s.after run r.events).next run event := by
  simp

theorem Starts.after_made (h : r.Starts run s id) :
    (s.after run (r.before ++ [.get r.key r.job])).cache =
      ((r.arrival run s).cache.start (r.arrival run s).clock r.key r.job).2 := by
  simpa [Timed.next, arrival] using congrArg Prod.snd h.started

theorem Starts.entry_fetch (h : r.Starts run s id) : (r.entry run s).fetch = id := h.number

theorem Starts.entry_mem (h : r.Starts run s id) :
    r.entry run s ∈ (s.after run (r.before ++ [.get r.key r.job])).cache.entries := by
  rw [h.after_made, mem_start_entries]
  exact Or.inl rfl

theorem Starts.lt_size (h : r.Starts run s id) :
    id < (s.after run r.events).cache.fetches.size := by
  induction r using since_induction with
  | made before key job =>
    rw [events_made, h.after_made, start_fetches, Array.size_push]
    exact Nat.lt_succ_of_le (Nat.le_of_eq h.number.symm)
  | later r event ih =>
    rw [after_later]
    exact Nat.lt_of_lt_of_le (ih h.earlier) (Timed.next_effect ..).size_le

theorem Starts.lt_of_before {r' : Request K J} {id' : Nat} (h : r.Starts run s id)
    (h' : r'.Starts run s id') {mid : List (Event K J)}
    (hb : r'.before = r.before ++ .get r.key r.job :: mid) : id < id' := by
  have hm : Starts run s { r with since := mid } id := ⟨h.number, h.started⟩
  have hl : id < (s.after run (r.before ++ .get r.key r.job :: mid)).cache.fetches.size :=
    hm.lt_size
  rw [← hb] at hl
  exact h'.number ▸ hl

theorem Starts.before_of_lt {r' : Request K J} {id' : Nat} (h : r.Starts run s id)
    (h' : r'.Starts run s id') (he : r.events = r'.events) (hid : id < id') :
    ∃ mid, r'.before = r.before ++ .get r.key r.job :: mid := by
  rcases order he with rfl | hb | ⟨mid, hb⟩
  · exact absurd (h.number.symm.trans h'.number) (Nat.ne_of_lt hid)
  · exact hb
  · exact absurd (h'.lt_of_before h hb) (Nat.not_lt_of_lt hid)

theorem Starts.unique {r' : Request K J} (h : r.Starts run s id) (h' : r'.Starts run s id)
    (he : r.events = r'.events) : r = r' := by
  -- of two requests the later one starts a fetch with a larger number
  rcases order he with rfl | ⟨mid, hb⟩ | ⟨mid, hb⟩
  · rfl
  · exact absurd (h.lt_of_before h' hb) (Nat.lt_irrefl id)
  · exact absurd (h'.lt_of_before h hb) (Nat.lt_irrefl id)

theorem Starts.fetch (h : r.Starts run s id) :
    ∃ f, (s.after run r.events).cache.fetches[id]? = some f ∧ f.key = r.key ∧ f.job = r.job ∧
      ∀ o, f.outcome = some o → r.Ended run s id o := by
  induction r using since_induction with
  | made before key job =>
    obtain rfl := h.number
    exact ⟨⟨key, job, none⟩, by rw [events_made, h.after_made]; exact Array.getElem?_push_size,
      rfl, rfl, nofun⟩
  | later r event ih =>
    obtain ⟨f, hf, hk, hj, ho⟩ := ih h.earlier
    obtain ⟨f', hf', hk', hj', hc⟩ := (Timed.next_effect run _ event).fetch hf
    refine ⟨f', by rw [after_later, hf'], hk'.trans hk, hj'.trans hj, fun o hout => ?_⟩
    rcases hc with rfl | ⟨rfl, -, hn⟩
    · exact (ho o hout).later event
    · obtain rfl : _ = o := Option.some.inj (hn.symm.trans hout)
      exact ⟨r.since, [], rfl, by rw [hj]; rfl⟩

theorem Starts.ended {o : Except BackingError V} (h : r.Starts run s id)
    (ho : (s.after run r.events).cache.outcome? id = some o) : r.Ended run s id o := by
  obtain ⟨f, hf, -, -, hout⟩ := h.fetch
  exact hout o (by simpa [outcome?, hf] using ho)

/-- An entry for the fetch is the one that the request made, and nothing removed it. -/
theorem Starts.entry_eq (h : r.Starts run s id) (hs : s.Proper) {e : CacheEntry K}
    (he : e ∈ (s.after run r.events).cache.entries) (hid : e.fetch = id) :
    e = r.entry run s ∧ .remove r.key ∉ r.since ∧ .clear ∉ r.since := by
  induction r using since_induction with
  | made before key job =>
    refine ⟨?_, nofun, nofun⟩
    rw [events_made, h.after_made, mem_start_entries] at he
    rcases he with rfl | ⟨he, -⟩
    · rfl
    · have hl := (hs.after run before).fetches e (mem_of_mem_makeRoom he)
      exact absurd (hid.trans h.number.symm) (Nat.ne_of_lt hl)
  | later r event ih =>
    have hi := h.earlier
    rw [after_later] at he
    have effect := Timed.next_effect run (s.after run r.events) event
    rcases effect.mem_entries he with ⟨he, hr, hc⟩ | ⟨key, job, rfl, -, rfl⟩
    · obtain ⟨rfl, hr', hc'⟩ := ih hi he
      have hr : .remove r.key ≠ event := Ne.symm hr
      exact ⟨rfl, by simp [Request.later, hr', hr], by simp [Request.later, hc', hc.symm]⟩
    · exact absurd hid (Nat.ne_of_gt hi.lt_size)

end Request

namespace Timed

variable {run : J → Fallible BackingError σ V} {config : CacheConfig} {outside : σ} {clock : Nat}

theorem exists_starts {events : List (Event K J)} {id : Nat}
    (h : id < ((new config outside clock).after run events).cache.fetches.size) :
    ∃ r : Request K J, r.events = events ∧ r.Starts run (new config outside clock) id := by
  induction events using List.reverseRecOn with
  | nil => cases h
  | append_singleton events event ih =>
    by_cases hl : id < ((new config outside clock).after run events).cache.fetches.size
    · obtain ⟨r, rfl, hr⟩ := ih hl
      exact ⟨r.later event, r.events_later event, hr.later event⟩
    · rw [after_append, after_cons, after_nil] at h
      rcases (next_effect run _ event).size with hn | ⟨key, job, rfl, heq, hn⟩
      · exact absurd (hn ▸ h) hl
      · exact ⟨⟨events, key, job, []⟩, rfl, by simp only [Request.arrival]; omega, heq⟩

end Timed

end Cache

end ChainRead
