import ChainRead.Cache

/-! # What operations do to a cache

A request for a key with a live entry changes nothing; any other adds one fetch and one entry, and
entries that were there may go. A wait changes something once for each fetch, when that ends: it
records how, and a failure drops the entries with the fetch's number.
-/

namespace ChainRead

namespace Cache

variable {σ K J V : Type} {c : Cache K J V} {now id : Nat} {key : K} {job : J}

/-- The fetch was started and has not ended. -/
def Outstanding (c : Cache K J V) (id : Nat) : Prop :=
  ∃ f, c.fetches[id]? = some f ∧ f.outcome = none

/-! ## Requests -/

section Requests

variable [DecidableEq K]

theorem find?_some {e : CacheEntry K} (h : c.find? key = some e) : e ∈ c.entries ∧ e.key = key :=
  ⟨List.mem_of_find?_eq_some h, by simpa using List.find?_some h⟩

theorem makeRoom_sublist (c : Cache K J V) (now : Nat) :
    (c.makeRoom now).Sublist c.entries := by
  unfold makeRoom
  split
  · exact .refl _
  dsimp only
  split
  · exact List.filter_sublist
  split
  · exact List.filter_sublist.trans List.filter_sublist
  · exact List.filter_sublist

theorem mem_of_mem_makeRoom {e : CacheEntry K} (h : e ∈ c.makeRoom now) : e ∈ c.entries :=
  (c.makeRoom_sublist now).subset h

def entryAt (c : Cache K J V) (now : Nat) (key : K) : CacheEntry K :=
  ⟨key, c.fetches.size, now, now + c.config.ttl⟩

@[simp] theorem start_fetches : (c.start now key job).2.fetches = c.fetches.push ⟨key, job, none⟩ :=
  rfl

theorem getElem?_start_fetches {f : Fetch K J V} (h : c.fetches[id]? = some f) :
    (c.start now key job).2.fetches[id]? = some f := by
  have hl := (Array.getElem?_eq_some_iff.mp h).1
  rw [start_fetches, Array.getElem?_push_lt hl, ← h, Array.getElem?_eq_getElem hl]

theorem start_entries : (c.start now key job).2.entries =
    c.entryAt now key :: (c.makeRoom now).filter fun e => e.key != key := rfl

theorem mem_start_entries {e : CacheEntry K} :
    e ∈ (c.start now key job).2.entries ↔
      e = c.entryAt now key ∨ e ∈ c.makeRoom now ∧ e.key ≠ key := by
  simp [start_entries]

/-- A request shares the fetch of a live entry, and starts one if the key has none. -/
theorem get_cases (c : Cache K J V) (now : Nat) (key : K) (job : J) :
    (∃ e ∈ c.entries, e.key = key ∧ now < e.expires ∧ c.get now key job = (e.fetch, c)) ∨
    (∀ e, c.find? key = some e → e.expires ≤ now) ∧ c.get now key job = c.start now key job := by
  unfold get
  rcases h : c.find? key with _ | e
  · exact Or.inr ⟨nofun, rfl⟩
  · obtain ⟨hm, hk⟩ := find?_some h
    by_cases hl : now < e.expires
    · exact Or.inl ⟨e, hm, hk, hl, if_pos hl⟩
    · refine Or.inr ⟨?_, if_neg hl⟩
      rintro _ ⟨⟩
      exact Nat.le_of_not_lt hl

end Requests

/-! ## Waits -/

section Waits

variable {o : Except BackingError V}

@[simp] theorem complete_config : (c.complete id o).config = c.config := by
  cases o <;> rfl

@[simp] theorem complete_fetches : (c.complete id o).fetches =
    c.fetches.modify id fun f => { f with outcome := some o } := by
  cases o <;> rfl

theorem complete_ok_entries (v : V) : (c.complete id (.ok v)).entries = c.entries := rfl

theorem mem_complete_error {cause : BackingError} {e : CacheEntry K} :
    e ∈ (c.complete id (.error cause)).entries ↔ e ∈ c.entries ∧ e.fetch ≠ id := by
  show e ∈ c.entries.filter _ ↔ _
  simp

theorem complete_sublist (c : Cache K J V) (id : Nat) (o : Except BackingError V) :
    (c.complete id o).entries.Sublist c.entries := by
  cases o with
  | ok v => exact .refl _
  | error cause => exact List.filter_sublist

theorem mem_of_mem_complete {e : CacheEntry K} (h : e ∈ (c.complete id o).entries) :
    e ∈ c.entries :=
  (c.complete_sublist id o).subset h

theorem mem_complete {e : CacheEntry K} (h : e ∈ c.entries) (hid : e.fetch ≠ id) :
    e ∈ (c.complete id o).entries := by
  cases o with
  | ok v => exact h
  | error cause => exact mem_complete_error.mpr ⟨h, hid⟩

theorem not_outstanding_complete : ¬(c.complete id o).Outstanding id := by
  rintro ⟨f, hf, ho⟩
  rw [complete_fetches, Array.getElem?_modify, if_pos rfl] at hf
  obtain ⟨g, -, rfl⟩ := Option.map_eq_some_iff.mp hf
  cases ho

/-- A wait does the job of a fetch that is outstanding, and changes nothing otherwise. -/
theorem await_cases (run : J → Fallible BackingError σ V) (id : Nat) (s : σ) (c : Cache K J V) :
    ¬c.Outstanding id ∧ (await run id (s, c)).2 = (s, c) ∨
    ∃ f, c.fetches[id]? = some f ∧ f.outcome = none ∧
      await run id (s, c) = ((run f.job s).1, (run f.job s).2, c.complete id (run f.job s).1) := by
  rcases hf : c.fetches[id]? with _ | f
  · exact Or.inl ⟨by simp [Outstanding, hf], by simp only [await, hf]⟩
  · rcases ho : f.outcome with _ | o
    · exact Or.inr ⟨f, rfl, ho, by simp only [await, hf, ho]; rfl⟩
    · exact Or.inl ⟨by simp [Outstanding, hf, ho], by simp only [await, hf, ho]⟩

end Waits

end Cache

end ChainRead
