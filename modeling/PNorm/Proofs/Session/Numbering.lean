import PNorm.Proofs.Session.Atomicity
import PNorm.Session.Numbering

/-!
# Numbers and names

Whatever was tried on a registry that started empty, its numbers are the
positions in the list of the attempts that were accepted, and numbers and names
stand for each other one to one (`numbers_are_positions`).

Which attempts are accepted is said on plain lists, by `Registry.accepted`: an
attempt is accepted behind others if its name is new, its function accepts
something and fewer than 65536 came before it.  A registry holds what this list
says (`Coherent.toList_run`), and everything about its numbers is read off
`Coherent` and that list.

Where the numbers are words of sixteen bits and the registry is written in place,
nothing else comes out (`Stands`): the word for a position is that position, and
a refusal leaves no half of an entry behind.
-/

namespace PNorm

namespace Registry

variable {α : Type}

/-! ## Accepted attempts -/

/-- An attempt can be accepted behind those that were accepted before it. -/
def Admits (accepted : List (Entry α)) (attempt : Entry α) : Prop :=
  (∀ entry ∈ accepted, entry.name ≠ attempt.name) ∧
    attempt.function.signature.alternatives ≠ [] ∧ accepted.length < 65536

instance (accepted : List (Entry α)) (attempt : Entry α) : Decidable (Admits accepted attempt) :=
  inferInstanceAs (Decidable (_ ∧ _))

/-- The attempts that are accepted, in their order. -/
def accepted (attempts : List (Entry α)) : List (Entry α) :=
  attempts.foldl (fun kept attempt => if Admits kept attempt then kept ++ [attempt] else kept) []

/-! ## One attempt -/

/-- Numbers are positions. -/
theorem get?_eq_getElem?_toList (r : Registry α) (id : Nat) : r.get? id = r.toList[id]? :=
  Array.getElem?_toList.symm

theorem Coherent.contains_eq_true_iff {r : Registry α} (hr : r.Coherent) {name : String} :
    r.contains name = true ↔ ∃ entry ∈ r.toList, entry.name = name := by
  rw [← hr.isSome_find?, Option.isSome_iff_exists]
  simp only [hr.find?_eq_some_iff, List.mem_iff_getElem?, ← get?_eq_getElem?_toList]
  constructor
  · intro h
    obtain ⟨entry, hname, hentry⟩ := h
    exact ⟨entry, hentry, hname⟩
  · intro h
    obtain ⟨entry, hentry, hname⟩ := h
    exact ⟨entry, hname, hentry⟩

theorem size_eq_length_toList (r : Registry α) : r.size = r.toList.length :=
  Array.length_toList.symm

/-- A registry refuses exactly what the list of its entries does not admit. -/
theorem Coherent.refusal?_eq_none_iff_admits {r : Registry α} (hr : r.Coherent)
    {attempt : Entry α} :
    r.refusal? attempt.name attempt.function = none ↔ Admits r.toList attempt := by
  have hnew : r.contains attempt.name = false ↔
      ∀ entry ∈ r.toList, entry.name ≠ attempt.name := by
    rw [← Bool.not_eq_true, hr.contains_eq_true_iff]
    simp
  have hempty : attempt.function.signature.isEmpty = false ↔
      attempt.function.signature.alternatives ≠ [] := List.isEmpty_eq_false_iff
  rw [refusal?_eq_none_iff, hnew, hempty, size_eq_length_toList, Admits, maxFunctions]

theorem toList_push (r : Registry α) (name : String) (function : Function α) :
    (r.push name function).toList = r.toList ++ [⟨name, function⟩] :=
  Array.toList_push

theorem after_of_admits {r : Registry α} (hr : r.Coherent) {attempt : Entry α}
    (hadmits : Admits r.toList attempt) :
    r.after attempt = r.push attempt.name attempt.function := by
  rw [after, register, hr.refusal?_eq_none_iff_admits.mpr hadmits]

theorem after_of_not_admits {r : Registry α} (hr : r.Coherent) {attempt : Entry α}
    (hadmits : ¬ Admits r.toList attempt) : r.after attempt = r := by
  rw [← hr.refusal?_eq_none_iff_admits] at hadmits
  obtain ⟨error, herror⟩ := Option.ne_none_iff_exists'.mp hadmits
  rw [after, register, herror]

theorem Coherent.after {r : Registry α} (hr : r.Coherent) (attempt : Entry α) :
    (r.after attempt).Coherent := by
  by_cases hadmits : Admits r.toList attempt
  · rw [after_of_admits hr hadmits]
    exact hr.push (hr.refusal?_eq_none_iff_admits.mpr hadmits)
  · rwa [after_of_not_admits hr hadmits]

/-- No attempt gives a number or a position another meaning. -/
theorem Coherent.lookups_after {r : Registry α} (hr : r.Coherent) (attempt : Entry α) :
    (∀ name id, r.idOf? name = some id → (r.after attempt).idOf? name = some id) ∧
      ∀ id entry, r.get? id = some entry → (r.after attempt).get? id = some entry := by
  by_cases hadmits : Admits r.toList attempt
  · rw [after_of_admits hr hadmits]
    refine ⟨?_, ?_⟩
    · intro name id hid
      obtain ⟨entry, hentry, hname⟩ := (hr.idOf?_eq_some_iff name id).mp hid
      have hmem : entry ∈ r.toList := by
        rw [get?_eq_getElem?_toList] at hentry
        exact List.mem_of_getElem? hentry
      rw [idOf?_push, if_neg, hid]
      rw [← hname]
      exact (hadmits.1 entry hmem).symm
    · intro id entry hentry
      rw [get?_push, if_neg, hentry]
      rintro rfl
      rw [get?_size] at hentry
      cases hentry
  · rw [after_of_not_admits hr hadmits]
    exact ⟨fun _ _ h => h, fun _ _ h => h⟩

/-! ## Runs -/

theorem run_cons (r : Registry α) (attempt : Entry α) (attempts : List (Entry α)) :
    r.run (attempt :: attempts) = (r.after attempt).run attempts := rfl

theorem Coherent.run {r : Registry α} (hr : r.Coherent) (attempts : List (Entry α)) :
    (r.run attempts).Coherent := by
  induction attempts generalizing r with
  | nil => exact hr
  | cons attempt attempts ih => exact ih (hr.after attempt)

theorem Coherent.toList_run {r : Registry α} (hr : r.Coherent) (attempts : List (Entry α)) :
    (r.run attempts).toList = attempts.foldl
      (fun kept attempt => if Admits kept attempt then kept ++ [attempt] else kept) r.toList := by
  induction attempts generalizing r with
  | nil => rfl
  | cons attempt attempts ih =>
      rw [run_cons, ih (hr.after attempt), List.foldl_cons]
      by_cases hadmits : Admits r.toList attempt
      · rw [after_of_admits hr hadmits, toList_push, if_pos hadmits]
      · rw [after_of_not_admits hr hadmits, if_neg hadmits]

theorem Coherent.lookups_run {r : Registry α} (hr : r.Coherent) (attempts : List (Entry α)) :
    (∀ name id, r.idOf? name = some id → (r.run attempts).idOf? name = some id) ∧
      ∀ id entry, r.get? id = some entry → (r.run attempts).get? id = some entry := by
  induction attempts generalizing r with
  | nil => exact ⟨fun _ _ h => h, fun _ _ h => h⟩
  | cons attempt attempts ih =>
      obtain ⟨hids, hentries⟩ := ih (hr.after attempt)
      obtain ⟨hids', hentries'⟩ := hr.lookups_after attempt
      exact ⟨fun name id hid => hids name id (hids' name id hid),
        fun id entry hentry => hentries id entry (hentries' id entry hentry)⟩

/-! ## What a registry says -/

theorem Coherent.nodup_names {r : Registry α} (hr : r.Coherent) :
    (r.toList.map Entry.name).Nodup := by
  rw [List.Nodup, List.pairwise_map, List.pairwise_iff_getElem]
  intro i j hi hj hij hname
  have hentry {id : Nat} (hid : id < r.toList.length) : r.get? id = some r.toList[id] := by
    rw [get?_eq_getElem?_toList, List.getElem?_eq_getElem hid]
  -- One name, and so one number.
  have hid := (hr.idOf?_eq_some_iff _ i).mpr ⟨_, hentry hi, hname⟩
  have hid' := (hr.idOf?_eq_some_iff _ j).mpr ⟨_, hentry hj, rfl⟩
  rw [hid] at hid'
  exact Nat.ne_of_lt hij (Option.some.inj hid')

/-- What is said of a registry after `attempts`. -/
structure Numbers (r : Registry α) (attempts : List (Entry α)) : Prop where
  toList : r.toList = accepted attempts
  size_le : r.size ≤ 65536
  names : (r.toList.map Entry.name).Nodup
  get? : ∀ id, r.get? id = r.toList[id]?
  idOf?_eq_some_iff : ∀ name id,
    r.idOf? name = some id ↔ ∃ entry, r.get? id = some entry ∧ entry.name = name
  taken : ∀ id, id < r.size ↔ ∃ name, r.idOf? name = some id
  isSome_find? : ∀ name, (r.find? name).isSome = r.contains name

theorem Coherent.numbers {r : Registry α} (hr : r.Coherent) {attempts : List (Entry α)}
    (htoList : r.toList = accepted attempts) : r.Numbers attempts where
  toList := htoList
  size_le := hr.size_le
  names := hr.nodup_names
  get? := r.get?_eq_getElem?_toList
  idOf?_eq_some_iff := hr.idOf?_eq_some_iff
  taken := by
    intro id
    rw [size_eq_length_toList]
    constructor
    · intro hid
      refine ⟨r.toList[id].name, (hr.idOf?_eq_some_iff _ id).mpr ⟨_, ?_, rfl⟩⟩
      rw [get?_eq_getElem?_toList, List.getElem?_eq_getElem hid]
    · intro h
      obtain ⟨name, hname⟩ := h
      obtain ⟨entry, hentry, _⟩ := (hr.idOf?_eq_some_iff name id).mp hname
      rw [get?_eq_getElem?_toList] at hentry
      exact (List.getElem?_eq_some_iff.mp hentry).1
  isSome_find? := hr.isSome_find?

/-- Why an attempt is refused behind others: the first reason that applies. -/
inductive Refuses (accepted : List (Entry α)) (attempt : Entry α) : SessionError → Prop
  | duplicateName (hname : ∃ entry ∈ accepted, entry.name = attempt.name) :
      Refuses accepted attempt (.duplicateName attempt.name)
  | emptySignature (hname : ∀ entry ∈ accepted, entry.name ≠ attempt.name)
      (hempty : attempt.function.signature.alternatives = []) :
      Refuses accepted attempt (.emptySignature attempt.name)
  | registryFull (hname : ∀ entry ∈ accepted, entry.name ≠ attempt.name)
      (haccepts : attempt.function.signature.alternatives ≠ [])
      (hfull : 65536 ≤ accepted.length) : Refuses accepted attempt .registryFull

/-- What the next attempt comes to. -/
structure Answers (r : Registry α) (attempt : Entry α) : Prop where
  accepts_iff : (∃ id r', r.register attempt.name attempt.function = .ok (id, r')) ↔
    Admits r.toList attempt
  accepted : ∀ id r', r.register attempt.name attempt.function = .ok (id, r') →
    id = r.size ∧ Session.GainsEntry r r' attempt.name attempt.function
  refused_iff : ∀ error, r.register attempt.name attempt.function = .error error ↔
    Refuses r.toList attempt error

theorem register_eq_ok_iff {r r' : Registry α} {attempt : Entry α} {id : Nat} :
    r.register attempt.name attempt.function = .ok (id, r') ↔
      r.refusal? attempt.name attempt.function = none ∧ id = r.size ∧
        r' = r.push attempt.name attempt.function := by
  unfold register
  cases r.refusal? attempt.name attempt.function <;> simp [eq_comm]

theorem register_eq_error_iff {r : Registry α} {attempt : Entry α} {error : SessionError} :
    r.register attempt.name attempt.function = .error error ↔
      r.refusal? attempt.name attempt.function = some error := by
  unfold register
  cases r.refusal? attempt.name attempt.function <;> simp

theorem Coherent.refusal?_eq_some_iff_refuses {r : Registry α} (hr : r.Coherent)
    {attempt : Entry α} {error : SessionError} :
    r.refusal? attempt.name attempt.function = some error ↔ Refuses r.toList attempt error := by
  cases hcontains : r.contains attempt.name with
  | true =>
      -- The name is in use, and this is the only reason that can be given.
      have hname := hr.contains_eq_true_iff.mp hcontains
      rw [refusal?, hcontains, if_pos rfl, Option.some.injEq]
      constructor
      · rintro rfl
        exact .duplicateName hname
      · intro hrefuses
        obtain ⟨entry, hentry, heq⟩ := hname
        cases hrefuses with
        | duplicateName => rfl
        | emptySignature hnew => exact absurd heq (hnew entry hentry)
        | registryFull hnew => exact absurd heq (hnew entry hentry)
  | false =>
      -- The name is new, and the two other reasons come in their order.
      have hname : ∀ entry ∈ r.toList, entry.name ≠ attempt.name := by
        intro entry hentry heq
        rw [hr.contains_eq_true_iff.mpr ⟨entry, hentry, heq⟩] at hcontains
        cases hcontains
      rw [refusal?_eq_some_iff hcontains]
      constructor
      · intro h
        obtain ⟨hempty, rfl⟩ | ⟨haccepts, hfull, rfl⟩ := h
        · exact .emptySignature hname hempty
        · exact .registryFull hname haccepts hfull
      · intro hrefuses
        cases hrefuses with
        | duplicateName hused =>
            obtain ⟨entry, hentry, heq⟩ := hused
            exact absurd heq (hname entry hentry)
        | emptySignature _ hempty => exact .inl ⟨hempty, rfl⟩
        | registryFull _ haccepts hfull => exact .inr ⟨haccepts, hfull, rfl⟩

theorem Coherent.answers {r : Registry α} (hr : r.Coherent) (attempt : Entry α) :
    r.Answers attempt where
  accepts_iff := by
    rw [← hr.refusal?_eq_none_iff_admits]
    simp [register_eq_ok_iff]
  accepted := by
    intro id r' hregister
    obtain ⟨_, rfl, rfl⟩ := register_eq_ok_iff.mp hregister
    exact ⟨rfl, Session.gainsEntry_push _ _ _⟩
  refused_iff := by
    intro error
    rw [register_eq_error_iff, hr.refusal?_eq_some_iff_refuses]

end Registry

/-! ## Words -/

theorem wordOf?_eq_some_iff {position : Nat} {word : UInt16} :
    wordOf? position = some word ↔ word.toNat = position := by
  unfold wordOf?
  by_cases hlt : position < UInt16.size
  · rw [if_pos hlt, Option.some.injEq]
    constructor
    · rintro rfl
      exact UInt16.toNat_ofNat_of_lt hlt
    · rintro rfl
      exact UInt16.ofNat_toNat
  · rw [if_neg hlt]
    simp only [reduceCtorEq, false_iff]
    rintro rfl
    exact hlt word.toNat_lt_size

theorem wordOf?_eq_none_iff {position : Nat} : wordOf? position = none ↔ 65536 ≤ position := by
  unfold wordOf?
  split <;> simp_all [UInt16.size]

namespace WordRegistry

variable {α : Type}

/-- `w` has the entries of `r` under the same names and the same numbers. -/
structure Stands (w : WordRegistry α) (r : Registry α) : Prop where
  entries : w.entries = r.entries
  idOf? : ∀ name, (w.idOf? name).map UInt16.toNat = r.idOf? name

theorem stands_empty : (empty : WordRegistry α).Stands .empty where
  entries := rfl
  idOf? := by
    intro name
    simp [idOf?, empty, Registry.idOf?, Registry.empty]

theorem Stands.contains {w : WordRegistry α} {r : Registry α} (h : w.Stands r) (name : String) :
    w.contains name = r.contains name := by
  rw [Registry.contains_eq_isSome_idOf?, ← h.idOf?, Option.isSome_map]
  exact Std.HashMap.contains_eq_isSome_getElem?

/-- One more entry, in both. -/
theorem Stands.push {w : WordRegistry α} {r : Registry α} (h : w.Stands r) {attempt : Entry α}
    {word : UInt16} (hword : word.toNat = r.size) :
    Stands ⟨w.index.insert attempt.name word, w.entries.push attempt⟩
      (r.push attempt.name attempt.function) where
  entries := by rw [h.entries, Registry.push]
  idOf? := by
    intro name
    rw [Registry.idOf?_push, WordRegistry.idOf?, Std.HashMap.getElem?_insert]
    by_cases hname : attempt.name = name
    · simp [hname, hword]
    · simp only [beq_iff_eq, hname, if_false]
      exact h.idOf? name

/-- In place an attempt has the same answer, and one that is refused changes nothing. -/
theorem Stands.run_register {w : WordRegistry α} {r : Registry α} (h : w.Stands r)
    (attempt : Entry α) :
    match r.register attempt.name attempt.function with
    | .error error => (register attempt).run w = .error error w
    | .ok (id, r') => ∃ word w', (register attempt).run w = .ok word w' ∧ word.toNat = id ∧
        w'.Stands r' := by
  have hsize : w.entries.size = r.size := by rw [h.entries, Registry.size]
  have hcontains := h.contains attempt.name
  unfold Registry.register Registry.refusal?
  by_cases hused : r.contains attempt.name = true
  · simp [WordRegistry.register, hcontains, hused]
  · by_cases hempty : attempt.function.signature.isEmpty = true
    · simp [WordRegistry.register, hcontains, hused, hempty]
    · simp only [hused, hempty, Bool.false_eq_true, if_false]
      by_cases hfull : maxFunctions ≤ r.size
      · have hnone : wordOf? w.entries.size = none := by
          rw [wordOf?_eq_none_iff, hsize]
          exact hfull
        simp only [if_pos hfull]
        simp [WordRegistry.register, hcontains, hused, hempty, hnone]
        rfl
      · obtain ⟨word, hsome⟩ : ∃ word, wordOf? w.entries.size = some word := by
          rw [← Option.ne_none_iff_exists', Ne, wordOf?_eq_none_iff, hsize]
          exact hfull
        have hword : word.toNat = r.size := by rw [← hsize, wordOf?_eq_some_iff.mp hsome]
        have hrun : (WordRegistry.register attempt).run w =
            .ok word ⟨w.index.insert attempt.name word, w.entries.push attempt⟩ := by
          simp [WordRegistry.register, hcontains, hused, hempty, hsome, -bind_pure_comp]
        simp only [if_neg hfull]
        exact ⟨word, _, hrun, hword, h.push hword⟩

/-- What an attempt comes to in place, beside what it comes to at once. -/
structure Follows (w : WordRegistry α) (r : Registry α) (attempt : Entry α) : Prop where
  accepted_iff : ∀ word, (∃ w', (register attempt).run w = .ok word w') ↔
    ∃ r', r.register attempt.name attempt.function = .ok (word.toNat, r')
  refused_iff : ∀ error w', (register attempt).run w = .error error w' ↔
    r.register attempt.name attempt.function = .error error ∧ w' = w

theorem Stands.follows {w : WordRegistry α} {r : Registry α} (h : w.Stands r)
    (attempt : Entry α) : w.Follows r attempt := by
  have hrun := h.run_register attempt
  rcases hregister : r.register attempt.name attempt.function with error | ⟨id, r'⟩
  · rw [hregister] at hrun
    refine ⟨?_, ?_⟩
    · simp [hrun, hregister]
    · intro other w'
      simp [hrun, hregister, eq_comm]
  · rw [hregister] at hrun
    obtain ⟨word, w', hrun, rfl, _⟩ := hrun
    refine ⟨?_, ?_⟩
    · intro other
      simp [hrun, hregister, UInt16.toNat_inj]
    · intro other w'
      simp [hrun, hregister]

theorem Stands.after {w : WordRegistry α} {r : Registry α} (h : w.Stands r)
    (attempt : Entry α) : (w.after attempt).Stands (r.after attempt) := by
  have hrun := h.run_register attempt
  unfold WordRegistry.after Registry.after
  rcases hregister : r.register attempt.name attempt.function with error | ⟨id, r'⟩
  · rw [hregister] at hrun
    rwa [hrun]
  · rw [hregister] at hrun
    obtain ⟨word, w', hrun, rfl, hstands⟩ := hrun
    rwa [hrun]

theorem Stands.run {w : WordRegistry α} {r : Registry α} (h : w.Stands r)
    (attempts : List (Entry α)) : (w.run attempts).Stands (r.run attempts) := by
  induction attempts generalizing w r with
  | nil => exact h
  | cons attempt attempts ih => exact ih (h.after attempt)

end WordRegistry

namespace Registry

/-- **The numbers of a registry are positions, one for each name.**  Whatever was tried on a
registry that started empty, its entries are the attempts that were accepted, in their order; a name
has a number exactly if the entry there carries it, and the numbers in use are those below the size,
which is at most 65536.  The next attempt is accepted with the size as its number, or refused with
the first reason that applies; whatever is tried later, every name keeps its number and every number
its entry.  In place and with words of sixteen bits for the numbers, all of this is the same. -/
theorem numbers_are_positions {α : Type} (attempts : List (Entry α)) :
    let r : Registry α := empty.run attempts
    let w : WordRegistry α := WordRegistry.empty.run attempts
    r.Numbers attempts ∧ (∀ attempt, r.Answers attempt) ∧
      (∀ later : List (Entry α),
        (∀ name id, r.idOf? name = some id → (r.run later).idOf? name = some id) ∧
        ∀ id entry, r.get? id = some entry → (r.run later).get? id = some entry) ∧
      w.Stands r ∧ ∀ attempt, w.Follows r attempt := by
  intro r w
  have hr : r.Coherent := coherent_empty.run attempts
  have hw : w.Stands r := WordRegistry.stands_empty.run attempts
  exact ⟨hr.numbers (coherent_empty.toList_run attempts), hr.answers, hr.lookups_run, hw,
    hw.follows⟩

end Registry

end PNorm
