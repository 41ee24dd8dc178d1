import TwoChoice.Proofs.Indexed
import TwoChoice.Proofs.Undoing

/-!
# Storing a key again

An insertion does not look for its key, so a key can have several entries. A lookup finds the one
that comes first in its order, and that one shadows the others. Which one this is depends on where
they lie and not on when they were stored.

Without growth the new entry goes to the end of a group, and all others stay where they are. In a
balanced table it comes behind the entry that was found before. Once something has been taken out it
may come first: then it is the old entry that is shadowed.

Growth stores all entries again, in the order in which they lie. The grown table is balanced at
every step, so what is found in it is the entry of the key that is stored first. The new entry
follows and is shadowed. But of several old entries another one may now be found.

## Main Definitions

* `Table.nextFree` — the position that takes the next entry with a hash
* `Table.LastGrowth` — the last growth of an insertion
* `Table.Shadows` — what is found once a key has been stored again

## Main Statements

* `Table.Stores.firstMatch?_edit` — the new entry is found if it comes first
* `Table.Balanced.costAt_lt` — it does not in a balanced table
* `Table.WellFormed.answer?_placeAll` — entries that are placed one after another shadow those after
  them
* `Table.Reachable.insert_shadows` — what is found after an insertion of a stored key
* `Table.insert_uncovers` — an insertion that shadows the entry that was found before
-/

namespace TwoChoice

universe u v

variable {K : Type u} {V : Type v} {slots : Nat} [Key K] [DecidableEq K]

namespace Table

variable {s : Scheme K} {t t' : Table K V slots} {hash : UInt64} {key other : K} {value : V}
variable {change : Edit K V slots} {cost n : Nat} {p : Position}

/-! ### What is found -/

/-- A lookup answers with the value at the first match. -/
theorem WellFormed.answer?_of_match (wellFormed : t.WellFormed s) (live : key ≠ Key.vacant)
    (found : t.firstMatch? key (s.hash key) = some (cost, p))
    (stored : t.entryAt? p = some (key, value)) : t.answer? s key = some value := by
  rw [answer?, wellFormed.firstOccurrence?_eq live, found, Option.map_some, valueOf?,
    Option.bind_some, stored]
  rfl

/-- A key that is stored has a match, and the value there is the answer. -/
theorem WellFormed.exists_answer (wellFormed : t.WellFormed s)
    (stored : ∃ value, (key, value) ∈ t.toList) :
    ∃ cost p value, t.firstMatch? key (s.hash key) = some (cost, p) ∧
      t.entryAt? p = some (key, value) ∧ t.answer? s key = some value := by
  obtain ⟨value, mem⟩ := stored
  have live : key ≠ Key.vacant := key_ne_vacant_of_mem_toList mem
  obtain ⟨cost, p, found⟩ :=
    wellFormed.exists_match live (wellFormed.holds_hash_iff.mpr ⟨value, mem⟩)
  obtain ⟨-, value', told⟩ := wellFormed.entryAt?_of_match live found
  exact ⟨cost, p, value', found, told, wellFormed.answer?_of_match live found told⟩

/-- A lookup costs what the match does. -/
theorem scanCost_of_match (live : key ≠ Key.vacant)
    (found : t.firstMatch? key hash = some (cost, p)) : t.scanCost key hash = cost := by
  rw [scanCost, if_neg live, found]
  rfl

/-- A key that is not stored has no answer. -/
theorem answer?_of_notStored (notStored : ∀ value, (key, value) ∉ t.toList) :
    t.answer? s key = none := by
  cases answered : t.answer? s key with
  | none => rfl
  | some value => exact absurd (mem_toList_of_valueOf? answered) (notStored value)

/-! ### One more entry -/

/-- The position that takes the next entry with a hash, if there is room for it. -/
def nextFree (t : Table K V slots) (hash : UInt64) : Position :=
  ⟨t.chosen hash, t.fillAt (t.chosen hash)⟩

namespace Stores

/-- The new entry lies at the position that was free. -/
theorem entryAt?_nextFree (stores : t.Stores hash key value change) (wellFormed : t.WellFormed s)
    (live : key ≠ Key.vacant) (n : Nat) :
    (t.edit change n).entryAt? (t.nextFree hash) = some (key, value) := by
  have inRange := stores.inRange
  have length_eq := wellFormed.length_toList_getElem inRange
  rw [entryAt?_edit inRange, nextFree, ← stores.index_eq, if_pos rfl,
    stores.toList_group wellFormed live]
  dsimp only
  rw [← length_eq, List.getElem?_concat_length]

/-- The first match of a key that is stored again is the new entry, if that comes first, or else the
one that it was. -/
theorem firstMatch?_edit (stores : t.Stores (s.hash key) key value change)
    (wellFormed : t.WellFormed s) (live : key ≠ Key.vacant)
    (found : t.firstMatch? key (s.hash key) = some (cost, p)) :
    (t.edit change (t.size + 1)).firstMatch? key (s.hash key) =
      if (t.candidates (s.hash key)).costAt (t.nextFree (s.hash key)) < cost then
        some ((t.candidates (s.hash key)).costAt (t.nextFree (s.hash key)),
          t.nextFree (s.hash key))
      else some (cost, p) := by
  have wellFormed' := stores.wellFormed wellFormed live
  obtain ⟨named, value', stored⟩ := wellFormed.entryAt?_of_match live found
  have cost_eq := wellFormed.costAt_of_match found
  -- The entries of the key are the old ones, none of which costs less than the match, and the new.
  have least : ∀ q value', (t.edit change (t.size + 1)).entryAt? q = some (key, value') →
      cost ≤ (t.candidates (s.hash key)).costAt q ∨ q = t.nextFree (s.hash key) := by
    intro q value' stored'
    rcases stores.entryAt?_edit_cases wellFormed live stored' with old | ⟨rfl, -⟩
    · have named' := wellFormed.candidate_of_entryAt? old
      exact Or.inl (wellFormed.le_costAt_of_entryAt? found named' old)
    · exact Or.inr rfl
  by_cases earlier : (t.candidates (s.hash key)).costAt (t.nextFree (s.hash key)) < cost
  · rw [if_pos earlier]
    refine wellFormed'.firstMatch?_eq_of_least live (t.chosen_eq_or _)
      (stores.entryAt?_nextFree wellFormed live _) fun q value' stored' => ?_
    rw [candidates_edit]
    rcases least q value' stored' with le | rfl
    · exact (Nat.le_of_lt earlier).trans le
    · exact Nat.le_refl _
  · rw [if_neg earlier, ← cost_eq]
    refine wellFormed'.firstMatch?_eq_of_least live named
      (stores.entryAt?_edit_of_stored wellFormed live stored) fun q value' stored' => ?_
    rw [candidates_edit, cost_eq]
    rcases least q value' stored' with le | rfl
    · exact le
    · exact Nat.le_of_not_lt earlier

/-- What is found of a key that is stored again. -/
theorem answer?_edit (stores : t.Stores (s.hash key) key value change) (wellFormed : t.WellFormed s)
    (live : key ≠ Key.vacant) (stored : ∃ value, (key, value) ∈ t.toList) :
    (t.edit change (t.size + 1)).answer? s key =
      if (t.candidates (s.hash key)).costAt (t.nextFree (s.hash key)) <
          t.scanCost key (s.hash key) then some value
      else t.answer? s key := by
  have wellFormed' := stores.wellFormed wellFormed live
  obtain ⟨cost, p, old, found, told, answered⟩ := wellFormed.exists_answer stored
  have found' := stores.firstMatch?_edit wellFormed live found
  rw [scanCost_of_match live found]
  by_cases earlier : (t.candidates (s.hash key)).costAt (t.nextFree (s.hash key)) < cost
  · rw [if_pos earlier] at found' ⊢
    exact wellFormed'.answer?_of_match live found' (stores.entryAt?_nextFree wellFormed live _)
  · rw [if_neg earlier] at found' ⊢
    rw [answered]
    exact wellFormed'.answer?_of_match live found'
      (stores.entryAt?_edit_of_stored wellFormed live told)

/-- What is found of a key that is stored for the first time. -/
theorem answer?_edit_of_notStored (stores : t.Stores (s.hash key) key value change)
    (wellFormed : t.WellFormed s) (live : key ≠ Key.vacant)
    (notStored : ∀ value, (key, value) ∉ t.toList) :
    (t.edit change (t.size + 1)).answer? s key = some value := by
  obtain ⟨cost, found⟩ := stores.exists_match wellFormed live notStored
  exact (stores.wellFormed wellFormed live).answer?_of_match live found
    (stores.entryAt?_nextFree wellFormed live _)

/-- What is found of another key does not change. -/
theorem answer?_edit_of_ne (stores : t.Stores (s.hash key) key value change)
    (wellFormed : t.WellFormed s) (live : key ≠ Key.vacant) (different : other ≠ key) :
    (t.edit change (t.size + 1)).answer? s other = t.answer? s other := by
  by_cases stored : ∃ value', (other, value') ∈ t.toList
  · obtain ⟨cost, p, old, found, told, answered⟩ := wellFormed.exists_answer stored
    have live' : other ≠ Key.vacant := key_ne_vacant_of_mem_toList (mem_toList_of_entryAt? told)
    rw [← stores.firstMatch?_edit_of_ne wellFormed live live' different] at found
    rw [answered]
    exact (stores.wellFormed wellFormed live).answer?_of_match live' found
      (stores.entryAt?_edit_of_stored wellFormed live told)
  · have notStored := not_exists.mp stored
    have notStored' (value' : V) : (other, value') ∉ (t.edit change (t.size + 1)).toList := by
      rw [(stores.perm wellFormed live _).mem_iff, List.mem_cons, not_or]
      exact ⟨fun same => different (congrArg Prod.fst same), notStored value'⟩
    rw [answer?_of_notStored notStored, answer?_of_notStored notStored']

end Stores

/-! ### Balanced tables -/

/-- In a balanced table the free position comes after all entries of the key. -/
theorem Balanced.costAt_lt (balanced : t.Balanced s) (wellFormed : t.WellFormed s)
    (stored : t.entryAt? p = some (key, value)) :
    (t.candidates (s.hash key)).costAt p <
      (t.candidates (s.hash key)).costAt (t.nextFree (s.hash key)) := by
  have named := wellFormed.candidate_of_entryAt? stored
  have before := wellFormed.slot_lt_fillAt stored
  obtain ⟨inFirst, inSecond⟩ := balanced p _ stored
  dsimp only at inFirst inSecond
  unfold Candidates.costAt nextFree chosen
  by_cases less : t.fillAt (t.candidates (s.hash key)).first ≤
      t.fillAt (t.candidates (s.hash key)).second
  · rw [Candidates.lessFull_of_le less]
    simp only [if_pos]
    rcases named with first | second
    · rw [first] at before
      rw [if_pos first]
      omega
    · have more := inSecond second
      split <;> omega
  · have apart : (t.candidates (s.hash key)).second ≠ (t.candidates (s.hash key)).first :=
      fun same => less (same ▸ Nat.le_refl _)
    rw [Candidates.lessFull_of_lt (Nat.lt_of_not_le less)]
    simp only [if_neg apart]
    rcases named with first | second
    · have more := inFirst first
      rw [if_pos first]
      omega
    · rw [second] at before
      rw [second, if_neg apart]
      omega

/-- So what is found of a key in a balanced table stays the same when it is stored again. -/
theorem Stores.answer?_edit_of_balanced (stores : t.Stores (s.hash key) key value change)
    (wellFormed : t.WellFormed s) (live : key ≠ Key.vacant) (balanced : t.Balanced s) :
    (t.edit change (t.size + 1)).answer? s key = (t.answer? s key).or (some value) := by
  by_cases stored : ∃ value', (key, value') ∈ t.toList
  · obtain ⟨cost, p, old, found, told, answered⟩ := wellFormed.exists_answer stored
    have later := balanced.costAt_lt wellFormed told
    rw [wellFormed.costAt_of_match found] at later
    rw [stores.answer?_edit wellFormed live stored, scanCost_of_match live found,
      if_neg (by omega), answered]
    rfl
  · have notStored := not_exists.mp stored
    rw [stores.answer?_edit_of_notStored wellFormed live notStored,
      answer?_of_notStored notStored]
    rfl

/-! ### Growth -/

/-- The value of the first entry of a key in a list. -/
def firstValue? (entries : List (K × V)) (key : K) : Option V :=
  (entries.find? fun entry => entry.1 = key).map Prod.snd

/-- Of entries that are placed one after another in a balanced table, the first of each key is
found, unless the key was found before. -/
theorem WellFormed.answer?_placeAll {entries : List (K × V)} (wellFormed : t.WellFormed s)
    (live : ∀ entry ∈ entries, entry.1 ≠ Key.vacant) (balanced : t.Balanced s)
    (placed : placeAll s entries t = .ok (some t')) (key : K) :
    t'.answer? s key = (t.answer? s key).or (firstValue? entries key) := by
  fun_induction placeAll s entries t with
  | case1 t =>
    cases placed
    exact (Option.or_none).symm
  | case2 => cases placed
  | case3 => cases placed
  | case4 key' value rest t change decided ih =>
    have stores := wellFormed.stores decided
    have live' := live _ List.mem_cons_self
    rw [ih (stores.wellFormed wellFormed live')
      (fun entry mem => live entry (List.mem_cons_of_mem _ mem))
      (stores.balanced wellFormed live' balanced _) placed]
    by_cases same : key' = key
    · subst same
      rw [stores.answer?_edit_of_balanced wellFormed live' balanced, Option.or_assoc]
      simp [firstValue?]
    · rw [stores.answer?_edit_of_ne wellFormed live' (Ne.symm same)]
      simp [firstValue?, same]

/-- In a grown table the first entry of each key is found that the old table has in its groups. -/
theorem WellFormed.answer?_of_grown (wellFormed : t.WellFormed s) (grew : t.grown s = .ok t')
    (key : K) : t'.answer? s key = firstValue? t.toList key := by
  have growth := wellFormed.growth_grown
  rw [grew] at growth
  cases growth with
  | reached before after larger split noRoom fits placed =>
    have usable := wellFormed.usable_of_mem_doublings (split ▸ List.mem_append_cons_self)
    have vacant : (empty larger : Table K V slots).toList = [] := toList_empty larger
    have notStored (value : V) : (key, value) ∉ (empty larger : Table K V slots).toList := by
      simp [vacant]
    rw [(wellFormed_empty_of_usable s usable).answer?_placeAll
      (fun entry mem => key_ne_vacant_of_mem_toList mem) (balanced_of_toList_eq_nil vacant) placed,
      answer?_of_notStored notStored, Option.none_or]

/-- An insertion that finds no room grows a table `before` last, into the table `after`. -/
inductive LastGrowth (s : Scheme K) (hash : UInt64) :
    Table K V slots → Table K V slots → Table K V slots → Prop
  /-- One growth makes room. -/
  | once {t larger : Table K V slots} (full : t.Blocked hash) (grew : t.grown s = .ok larger)
      (room : ¬larger.Blocked hash) : LastGrowth s hash t t larger
  /-- Another growth follows. -/
  | again {t larger before after : Table K V slots} (full : t.Blocked hash)
      (grew : t.grown s = .ok larger) (later : LastGrowth s hash larger before after) :
      LastGrowth s hash t before after

/-- An insertion that finds no room and returns has grown, and goes on with what the last growth
yields. -/
theorem WellFormed.exists_lastGrowth (wellFormed : t.WellFormed s) (full : t.Blocked (s.hash key))
    (returned : (insertLoop s key value t).result = .ok ()) :
    ∃ before after, LastGrowth s (s.hash key) t before after ∧
      insertLoop s key value t = insertLoop s key value after := by
  fun_induction insertLoop s key value t with
  | case1 => cases returned
  | case2 t change decided =>
    rw [(wellFormed.placement_eq_none_iff _ key value).mpr full] at decided
    cases decided
  | case3 => cases returned
  | case4 t noRoom larger grew ih =>
    by_cases full' : larger.Blocked (s.hash key)
    · obtain ⟨before, after, last, insert_eq⟩ := ih (wellFormed.of_grown grew).1 full' returned
      exact ⟨before, after, .again full grew last, insert_eq⟩
    · exact ⟨t, larger, .once full grew full', rfl⟩

/-- The table that grows last has the entries that there were. -/
theorem LastGrowth.before {before after : Table K V slots}
    (last : LastGrowth s hash t before after) (wellFormed : t.WellFormed s) :
    before.WellFormed s ∧ before.toList.Perm t.toList ∧ before.grown s = .ok after ∧
      ¬after.Blocked hash := by
  induction last with
  | once full grew room => exact ⟨wellFormed, List.Perm.refl _, grew, room⟩
  | again full grew later ih =>
    obtain ⟨wellFormed', perm⟩ := wellFormed.of_grown grew
    obtain ⟨here, same, rest⟩ := ih wellFormed'
    exact ⟨here, same.trans perm, rest⟩

/-! ### Insertions -/

/-- What lookups of a key answer with once the key has been stored again. -/
structure Shadows (s : Scheme K) (t : Table K V slots) (key : K) (value : V) : Prop where
  /-- Without growth the new value is found if the free position comes before the entry that was
  found, and the old one if it does not. -/
  room : ¬t.Blocked (s.hash key) → ∃ old, (key, old) ∈ t.toList ∧ Answers s t key (some old) ∧
    Answers s (t.insert s key value).table key
      (some (if (t.candidates (s.hash key)).costAt (t.nextFree (s.hash key)) <
        t.scanCost key (s.hash key) then value else old))
  /-- After growth an old value is found: that of the first entry of the key, group by group, in the
  table that grew last. -/
  grown : t.Blocked (s.hash key) → ∃ before after old, LastGrowth s (s.hash key) t before after ∧
    firstValue? before.toList key = some old ∧ (key, old) ∈ t.toList ∧
    Answers s (t.insert s key value).table key (some old)
  /-- So the answer does not change if the table is balanced or has to grow, and if, in the latter
  case, all values of the key are the same. -/
  kept : (¬t.Blocked (s.hash key) → t.Balanced s) →
    (t.Blocked (s.hash key) →
      ∀ old old', (key, old) ∈ t.toList → (key, old') ∈ t.toList → old = old') →
    ∃ old, Answers s t key (some old) ∧ Answers s (t.insert s key value).table key (some old)

/-- An insertion with room edits the table. -/
theorem WellFormed.exists_stores_of_room (wellFormed : t.WellFormed s)
    (room : ¬t.Blocked (s.hash key)) (value : V) :
    ∃ change, t.Stores (s.hash key) key value change ∧
      insertLoop s key value t = ⟨.ok (), t.edit change (t.size + 1)⟩ := by
  obtain ⟨change, decided, stores⟩ := wellFormed.exists_stores room key value
  exact ⟨change, stores, insertLoop_of_room decided⟩

/-- Without growth, what is found depends on whether the free position comes first. -/
theorem WellFormed.answer?_insert_of_room (wellFormed : t.WellFormed s) (live : key ≠ Key.vacant)
    (stored : ∃ value, (key, value) ∈ t.toList) (room : ¬t.Blocked (s.hash key)) (value : V) :
    (insertLoop s key value t).table.answer? s key =
      if (t.candidates (s.hash key)).costAt (t.nextFree (s.hash key)) <
          t.scanCost key (s.hash key) then some value
      else t.answer? s key := by
  obtain ⟨change, stores, insert_eq⟩ := wellFormed.exists_stores_of_room room value
  rw [insert_eq]
  exact stores.answer?_edit wellFormed live stored

/-- After growth it is the first entry of the key in the table that grew last. -/
theorem LastGrowth.answer?_insert {before after : Table K V slots}
    (last : LastGrowth s (s.hash key) t before after) (wellFormed : t.WellFormed s)
    (live : key ≠ Key.vacant) (stored : ∃ value, (key, value) ∈ t.toList) (value : V) :
    ∃ old, firstValue? before.toList key = some old ∧ (key, old) ∈ t.toList ∧
      (insertLoop s key value after).table.answer? s key = some old := by
  obtain ⟨wellFormed', perm, grew, room⟩ := last.before wellFormed
  obtain ⟨wellFormed'', perm'⟩ := wellFormed'.of_grown grew
  have stored'' : ∃ value, (key, value) ∈ after.toList := by
    obtain ⟨value, mem⟩ := stored
    exact ⟨value, (perm'.trans perm).mem_iff.mpr mem⟩
  obtain ⟨cost, p, old, found, told, answered⟩ := wellFormed''.exists_answer stored''
  obtain ⟨change, stores, insert_eq⟩ := wellFormed''.exists_stores_of_room room value
  refine ⟨old, ?_, (perm'.trans perm).mem_iff.mp (mem_toList_of_entryAt? told), ?_⟩
  · rw [← wellFormed'.answer?_of_grown grew, answered]
  · rw [insert_eq, stores.answer?_edit_of_balanced wellFormed'' live
      (wellFormed'.balanced_of_grown grew), answered]
    rfl

/-- What a lookup finds is what it answers with. -/
theorem WellFormed.answers_of_answer? (wellFormed : t.WellFormed s) {value? : Option V}
    (answered : t.answer? s key = value?) : Answers s t key value? :=
  answered ▸ wellFormed.answers key

/-- What is found of a key that is stored again depends on where its entries lie. Without growth the
new entry is found exactly if its position comes before that of the entry found before, which it
does not in a balanced table. After growth an old entry is found. -/
theorem Reachable.insert_shadows (reachable : Reachable s t)
    (stored : ∃ old, (key, old) ∈ t.toList)
    (returned : (t.insert s key value).result = .ok ()) : Shadows s t key value := by
  have wellFormed := reachable.wellFormed
  have wellFormed' := (wellFormed.insertion_insert key value).wellFormed wellFormed
  obtain ⟨cost, p, old, found, told, answered⟩ := wellFormed.exists_answer stored
  have mem := mem_toList_of_entryAt? told
  have live : key ≠ Key.vacant := key_ne_vacant_of_mem_toList mem
  have insert_eq : t.insert s key value = insertLoop s key value t := if_neg live
  rw [insert_eq] at returned wellFormed'
  constructor
  case room =>
    intro room
    refine ⟨old, mem, wellFormed.answers_of_answer? answered, ?_⟩
    rw [insert_eq]
    apply wellFormed'.answers_of_answer?
    rw [wellFormed.answer?_insert_of_room live stored room, answered]
    split <;> rfl
  case grown =>
    intro full
    obtain ⟨before, after, last, insert_eq'⟩ := wellFormed.exists_lastGrowth full returned
    obtain ⟨old', first_eq, mem', answered'⟩ := last.answer?_insert wellFormed live stored value
    rw [← insert_eq'] at answered'
    rw [insert_eq]
    exact ⟨before, after, old', last, first_eq, mem', wellFormed'.answers_of_answer? answered'⟩
  case kept =>
    intro balanced same
    refine ⟨old, wellFormed.answers_of_answer? answered, ?_⟩
    rw [insert_eq]
    apply wellFormed'.answers_of_answer?
    by_cases full : t.Blocked (s.hash key)
    · obtain ⟨before, after, last, insert_eq'⟩ := wellFormed.exists_lastGrowth full returned
      obtain ⟨old', -, mem', answered'⟩ := last.answer?_insert wellFormed live stored value
      rw [insert_eq', answered', same full old old' mem mem']
    · obtain ⟨change, stores, edit_eq⟩ := wellFormed.exists_stores_of_room full value
      rw [edit_eq, stores.answer?_edit_of_balanced wellFormed live (balanced full), answered]
      rfl

/-- Two entries that leave no room for another one of the second key. -/
def crowdedOut : Table ZeroVacant UInt64 1 :=
  (Operation.run Scheme.ofWords Accumulation.listing [.insert ⟨3⟩ 30, .insert ⟨5⟩ 50]
    ⟨empty 8, 0⟩).2.table

theorem reachable_crowdedOut : Reachable Scheme.ofWords crowdedOut :=
  Reachable.run_empty Accumulation.listing (by decide) (by simp [Operation.Legal]) 0

/-- The fourth key of the shaken table is stored again. The free position is beside its entry and
comes first, so the new value is found. Storing the second key of the other table again makes that
grow, and the old value is found. -/
theorem insert_shadows_shaken :
    Reachable colliding shaken ∧
      Answers colliding (shaken.insert colliding ⟨4⟩ 41).table ⟨4⟩ (some 41) ∧
      Reachable Scheme.ofWords crowdedOut ∧ crowdedOut.Blocked (Scheme.ofWords.hash ⟨5⟩) ∧
      ∃ before after, LastGrowth Scheme.ofWords (Scheme.ofWords.hash ⟨5⟩) crowdedOut before after ∧
        Answers Scheme.ofWords (crowdedOut.insert Scheme.ofWords ⟨5⟩ 51).table ⟨5⟩ (some 50) := by
  have shadows : Shadows colliding shaken ⟨4⟩ 41 :=
    reachable_shaken.insert_shadows ⟨40, by decide +kernel⟩ (by decide +kernel)
  have shadows' : Shadows Scheme.ofWords crowdedOut ⟨5⟩ 51 :=
    reachable_crowdedOut.insert_shadows ⟨50, by decide +kernel⟩ (by decide +kernel)
  have full : crowdedOut.Blocked (Scheme.ofWords.hash ⟨5⟩) := by decide +kernel
  have distinct : crowdedOut.DistinctKeys := by decide +kernel
  obtain ⟨old, -, -, answers⟩ := shadows.room (by decide +kernel)
  rw [if_pos (by decide +kernel)] at answers
  obtain ⟨before, after, old', last, -, mem, answers'⟩ := shadows'.grown full
  obtain rfl : old' = 50 := distinct.value_eq mem (by decide +kernel)
  exact ⟨reachable_shaken, answers, reachable_crowdedOut, full, before, after, last, answers'⟩

/-- Two entries that share a candidate, the first of which is taken out. -/
def uncovered : Table ZeroVacant UInt64 4 :=
  (Operation.run Scheme.ofWords Accumulation.listing
    [.insert ⟨3⟩ 30, .insert ⟨5⟩ 50, .erase ⟨3⟩] ⟨empty 8, 0⟩).2.table

theorem reachable_uncovered : Reachable Scheme.ofWords uncovered :=
  Reachable.run_empty Accumulation.listing (by decide) (by simp [Operation.Legal]) 0

/-- It is not so that the entry that is stored last is always shadowed. The entry of the second key
lies in its second candidate. The first candidate has become vacant and takes the new entry, which
is then found. -/
theorem insert_uncovers :
    Reachable Scheme.ofWords uncovered ∧
      (uncovered.get Scheme.ofWords ⟨5⟩ 0).result = .ok (some 50) ∧
      (uncovered.insert Scheme.ofWords ⟨5⟩ 51).result = .ok () ∧
      ((uncovered.insert Scheme.ofWords ⟨5⟩ 51).table.get Scheme.ofWords ⟨5⟩ 0).result =
        .ok (some 51) ∧
      ¬∀ (t : Table ZeroVacant UInt64 4) (key : ZeroVacant) (value old : UInt64),
        Reachable Scheme.ofWords t → (key, old) ∈ t.toList →
          (t.insert Scheme.ofWords key value).result = .ok () →
          Answers Scheme.ofWords t key (some old) →
            Answers Scheme.ofWords (t.insert Scheme.ofWords key value).table key (some old) := by
  have returned : (uncovered.insert Scheme.ofWords ⟨5⟩ 51).result = .ok () := by decide +kernel
  have got : ((uncovered.insert Scheme.ofWords ⟨5⟩ 51).table.get Scheme.ofWords ⟨5⟩ 0).result =
      .ok (some 51) := by decide +kernel
  have answers : Answers Scheme.ofWords uncovered ⟨5⟩ (some 50) :=
    reachable_uncovered.wellFormed.answers_of_stored (by decide +kernel) (by decide +kernel)
  refine ⟨reachable_uncovered, by decide +kernel, returned, got, fun always => ?_⟩
  obtain ⟨cost, found?, -, lookup, value_eq⟩ :=
    always uncovered ⟨5⟩ 51 50 reachable_uncovered (by decide +kernel) returned answers
  have result_eq := (lookup.get rfl).result_eq got
  rw [value_eq] at result_eq
  cases result_eq

end Table

end TwoChoice
