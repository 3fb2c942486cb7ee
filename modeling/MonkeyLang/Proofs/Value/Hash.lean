import Mathlib.Data.List.Nodup
import MonkeyLang.Proofs.Value.Operators

/-!
# Hashes as maps

The entries of a hash are a finite map from hash keys to entries. Its reading is `entryFor?`, and
`insertEntry` changes it at one hash key only (`entryFor?_insertEntry_self`,
`entryFor?_insertEntry_of_ne`). Entries in increasing order are determined by the map
(`Ascending.eq_of_entryFor?`), so what is left of many insertions depends on the last one for each
hash key and on nothing else (`insertEntries_eq_iff`).
-/

namespace MonkeyLang

/-! ## The order of hash keys -/

namespace HashKey

variable {left middle right : HashKey}

/-- The order of hash keys in terms of numbers. -/
theorem before_iff : left.before right ↔
    left.kind.rank < right.kind.rank ∨
      left.kind = right.kind ∧ left.digest.toNat < right.digest.toNat := by
  simp [before]

/-- The place of a kind determines it. -/
theorem kind_eq_of_rank_eq (hrank : left.kind.rank = right.kind.rank) :
    left.kind = right.kind := by
  revert hrank
  cases left.kind <;> cases right.kind <;> decide

/-- No hash key stands before itself. -/
theorem not_before_self (hashKey : HashKey) : ¬ hashKey.before hashKey := by
  rw [before_iff]
  omega

/-- What stands before something stands before all that comes behind it. -/
theorem before_trans (hfirst : left.before middle) (hsecond : middle.before right) :
    left.before right := by
  rw [before_iff] at hfirst hsecond ⊢
  rcases hfirst with hrank | ⟨hkind, hdigest⟩
  · rcases hsecond with hrank' | ⟨hkind', _⟩
    · exact Or.inl (by omega)
    · exact Or.inl (hkind' ▸ hrank)
  · rcases hsecond with hrank' | ⟨hkind', hdigest'⟩
    · exact Or.inl (hkind ▸ hrank')
    · exact Or.inr ⟨hkind.trans hkind', by omega⟩

/-- Of two hash keys one stands before the other. -/
theorem before_of_not_before (hne : left ≠ right) (hnot : ¬ left.before right) :
    right.before left := by
  rw [before_iff] at hnot ⊢
  by_cases hkind : left.kind = right.kind
  · have hdigest : left.digest.toNat ≠ right.digest.toNat := by
      intro hsame
      apply hne
      obtain ⟨kind, digest⟩ := left
      obtain ⟨kind', digest'⟩ := right
      cases hkind
      cases UInt64.toNat_inj.mp hsame
      rfl
    have hnotLess : ¬ left.digest.toNat < right.digest.toNat :=
      fun hless => hnot (Or.inr ⟨hkind, hless⟩)
    exact Or.inr ⟨hkind.symm, by omega⟩
  · have hrank : left.kind.rank ≠ right.kind.rank :=
      fun hrank => hkind (kind_eq_of_rank_eq hrank)
    exact Or.inl (by omega)

end HashKey

/-! ## One insertion -/

variable {α : Type} {entry : Entry α} {entries entries' : List (Entry α)} {hashKey : HashKey}

/-- The first entry counts if it has the hash key. -/
theorem entryFor?_cons (hashKey : HashKey) (head : Entry α) (tail : List (Entry α)) :
    entryFor? hashKey (head :: tail) =
      if head.hashKey = hashKey then some head else entryFor? hashKey tail := by
  unfold entryFor?
  rw [List.find?_cons]
  split
  · next hhead => rw [if_pos (by simpa using hhead)]
  · next hhead => rw [if_neg (by simpa using hhead)]

/-- An entry is found under the hash key under which it is stored. -/
theorem mem_of_entryFor? (hfound : entryFor? hashKey entries = some entry) :
    entry ∈ entries ∧ entry.hashKey = hashKey :=
  ⟨List.mem_of_find?_eq_some hfound, by simpa using List.find?_some hfound⟩

/-- Nothing is found under a hash key precisely if no entry has it. -/
theorem entryFor?_eq_none_iff :
    entryFor? hashKey entries = none ↔ ∀ entry ∈ entries, entry.hashKey ≠ hashKey := by
  simp [entryFor?]

/-- An entry that was just inserted is found. -/
theorem entryFor?_insertEntry_self (entry : Entry α) (entries : List (Entry α)) :
    entryFor? entry.hashKey (insertEntry entry entries) = some entry := by
  induction entries with
  | nil => rw [insertEntry, entryFor?_cons, if_pos rfl]
  | cons head tail ih =>
      unfold insertEntry
      split
      · rw [entryFor?_cons, if_pos rfl]
      · next hne =>
          split
          · rw [entryFor?_cons, if_pos rfl]
          · rw [entryFor?_cons, if_neg (Ne.symm hne), ih]

/-- An insertion leaves the entries under other hash keys alone. -/
theorem entryFor?_insertEntry_of_ne (hne : entry.hashKey ≠ hashKey) (entries : List (Entry α)) :
    entryFor? hashKey (insertEntry entry entries) = entryFor? hashKey entries := by
  induction entries with
  | nil => rw [insertEntry, entryFor?_cons, if_neg hne]
  | cons head tail ih =>
      unfold insertEntry
      split
      · next hsame => rw [entryFor?_cons, entryFor?_cons, if_neg hne, if_neg (hsame ▸ hne)]
      · split
        · rw [entryFor?_cons, if_neg hne]
        · rw [entryFor?_cons, entryFor?_cons, ih]

/-- What is found after an insertion. -/
theorem entryFor?_insertEntry (hashKey : HashKey) (entry : Entry α) (entries : List (Entry α)) :
    entryFor? hashKey (insertEntry entry entries) =
      if entry.hashKey = hashKey then some entry else entryFor? hashKey entries := by
  split
  · next hsame =>
      subst hsame
      exact entryFor?_insertEntry_self entry entries
  · next hne => exact entryFor?_insertEntry_of_ne hne entries

/-- Indexing by the key of an entry that was just inserted finds its value. -/
theorem Value.indexBy_insertEntry_self {key : Value} {entry : Entry Value}
    (hkey : key.hashKey = .ok entry.hashKey) (entries : List (Entry Value)) :
    (Value.hash (insertEntry entry entries)).indexBy key = .ok entry.value := by
  rw [indexBy_hash, hkey, Except.map, entryFor?_insertEntry_self]
  rfl

/-- An insertion does not change what is found under a key with another hash key. -/
theorem Value.indexBy_insertEntry_of_ne {key : Value} {entry : Entry Value}
    (hkey : key.hashKey = .ok hashKey) (hne : entry.hashKey ≠ hashKey)
    (entries : List (Entry Value)) :
    (Value.hash (insertEntry entry entries)).indexBy key = (Value.hash entries).indexBy key := by
  rw [indexBy_hash, indexBy_hash, hkey, Except.map, Except.map, entryFor?_insertEntry_of_ne hne]

/-! ## Entries in order -/

/-- Whether entries stand in increasing order of their hash keys, as those of a hash do. -/
def Ascending (entries : List (Entry α)) : Prop :=
  entries.Pairwise fun entry later => entry.hashKey.before later.hashKey

namespace Ascending

/-- An insertion keeps the order. -/
theorem insertEntry (hascending : Ascending entries) (entry : Entry α) :
    Ascending (insertEntry entry entries) := by
  induction entries with
  | nil => exact List.pairwise_singleton _ _
  | cons head tail ih =>
      obtain ⟨hhead, htail⟩ := List.pairwise_cons.mp hascending
      unfold MonkeyLang.insertEntry
      split
      · next hsame =>
          exact List.pairwise_cons.mpr ⟨fun later hmem => hsame ▸ hhead later hmem, htail⟩
      · next hne =>
          split
          · next hbefore =>
              refine List.pairwise_cons.mpr ⟨fun later hmem => ?_, hascending⟩
              rcases List.mem_cons.mp hmem with rfl | hlater
              · exact hbefore
              · exact HashKey.before_trans hbefore (hhead later hlater)
          · next hnot =>
              refine List.pairwise_cons.mpr ⟨fun later hmem => ?_, ih htail⟩
              rcases mem_insertEntry hmem with rfl | hlater
              · exact HashKey.before_of_not_before hne hnot
              · exact hhead later hlater

/-- No two entries have the same hash key. -/
theorem nodup (hascending : Ascending entries) : (entries.map Entry.hashKey).Nodup := by
  rw [List.Nodup, List.pairwise_map]
  refine hascending.imp fun hbefore hsame => ?_
  rw [hsame] at hbefore
  exact HashKey.not_before_self _ hbefore

end Ascending

/-- Where hash keys are distinct, every entry is found under its own. -/
theorem entryFor?_of_mem (hnodup : (entries.map Entry.hashKey).Nodup) (hmem : entry ∈ entries) :
    entryFor? entry.hashKey entries = some entry := by
  induction entries with
  | nil => cases hmem
  | cons head tail ih =>
      rw [List.map_cons, List.nodup_cons] at hnodup
      rw [entryFor?_cons]
      rcases List.mem_cons.mp hmem with rfl | htail
      · rw [if_pos rfl]
      · have hne : head.hashKey ≠ entry.hashKey := by
          intro hsame
          exact hnodup.1 (hsame ▸ List.mem_map_of_mem htail)
        rw [if_neg hne, ih hnodup.2 htail]

/-- Where hash keys are distinct, the order of the entries does not matter. -/
theorem entryFor?_perm (hnodup : (entries.map Entry.hashKey).Nodup) (hperm : entries.Perm entries')
    (hashKey : HashKey) : entryFor? hashKey entries = entryFor? hashKey entries' := by
  have hnodup' : (entries'.map Entry.hashKey).Nodup := (hperm.map Entry.hashKey).nodup_iff.mp hnodup
  cases hfound : entryFor? hashKey entries' with
  | none =>
      rw [entryFor?_eq_none_iff] at hfound ⊢
      exact fun entry hmem => hfound entry (hperm.subset hmem)
  | some entry =>
      obtain ⟨hmem, rfl⟩ := mem_of_entryFor? hfound
      exact entryFor?_of_mem hnodup (hperm.symm.subset hmem)

/-- Entries in order are determined by what is found under each hash key. -/
theorem Ascending.eq_of_entryFor? (hascending : Ascending entries)
    (hascending' : Ascending entries')
    (hsame : ∀ hashKey, entryFor? hashKey entries = entryFor? hashKey entries') :
    entries = entries' := by
  have hmem : ∀ entry, entry ∈ entries ↔ entry ∈ entries' := by
    intro entry
    constructor
    · intro hmem
      have hfound := entryFor?_of_mem hascending.nodup hmem
      rw [hsame] at hfound
      exact (mem_of_entryFor? hfound).1
    · intro hmem
      have hfound := entryFor?_of_mem hascending'.nodup hmem
      rw [← hsame] at hfound
      exact (mem_of_entryFor? hfound).1
  have hperm : entries.Perm entries' :=
    (List.perm_ext_iff_of_nodup (hascending.nodup.of_map _) (hascending'.nodup.of_map _)).mpr hmem
  -- Two entries of which each stands before the other cannot be.
  refine hperm.eq_of_pairwise (fun entry later _ _ hbefore hafter => ?_) hascending hascending'
  exact absurd (HashKey.before_trans hbefore hafter) (HashKey.not_before_self _)

/-! ## Insertions in sequence -/

/-- Insert entries from the first to the last into a hash without entries. -/
def insertEntries (inserted : List (Entry α)) : List (Entry α) :=
  inserted.foldl (fun entries entry => insertEntry entry entries) []

/-- Insertions leave entries in order. -/
theorem ascending_insertEntries (inserted : List (Entry α)) :
    Ascending (insertEntries inserted) := by
  have hfold : ∀ entries : List (Entry α), Ascending entries →
      Ascending (inserted.foldl (fun entries entry => insertEntry entry entries) entries) := by
    induction inserted with
    | nil => exact fun _ hascending => hascending
    | cons entry inserted ih => exact fun _ hascending => ih _ (hascending.insertEntry entry)
  exact hfold [] .nil

/-- What is found after insertions is the last entry that was inserted with the hash key. -/
theorem entryFor?_insertEntries (hashKey : HashKey) (inserted : List (Entry α)) :
    entryFor? hashKey (insertEntries inserted) = entryFor? hashKey inserted.reverse := by
  unfold insertEntries
  rw [List.foldl_eq_foldr_reverse]
  induction inserted.reverse with
  | nil => rfl
  | cons entry earlier ih => rw [List.foldr_cons, entryFor?_insertEntry, entryFor?_cons, ih]

/-- The last entry with a hash key is found when the entries are searched from the last one on. -/
theorem entryFor?_reverse_eq_some_iff {inserted : List (Entry α)} :
    entryFor? hashKey inserted.reverse = some entry ↔
      ∃ before after, inserted = before ++ entry :: after ∧ entry.hashKey = hashKey ∧
        ∀ later ∈ after, later.hashKey ≠ hashKey := by
  unfold entryFor?
  rw [List.find?_eq_some_iff_append]
  constructor
  · rintro ⟨hsame, later, earlier, hsplit, hlater⟩
    refine ⟨earlier.reverse, later.reverse, ?_, by simpa using hsame, by simpa using hlater⟩
    rw [← inserted.reverse_reverse, hsplit]
    simp
  · rintro ⟨before, after, rfl, hsame, hafter⟩
    exact ⟨by simpa using hsame, after.reverse, before.reverse, by simp, by simpa using hafter⟩

/-- Insertions leave the same entries precisely if the last entry is the same for each hash key. -/
theorem insertEntries_eq_iff {inserted inserted' : List (Entry α)} :
    insertEntries inserted = insertEntries inserted' ↔
      ∀ hashKey, entryFor? hashKey inserted.reverse = entryFor? hashKey inserted'.reverse := by
  simp only [← entryFor?_insertEntries]
  constructor
  · intro hsame hashKey
    rw [hsame]
  · exact (ascending_insertEntries inserted).eq_of_entryFor? (ascending_insertEntries inserted')

/-- Entries with distinct hash keys may be inserted in any order. -/
theorem insertEntries_perm {inserted inserted' : List (Entry α)}
    (hnodup : (inserted.map Entry.hashKey).Nodup) (hperm : inserted.Perm inserted') :
    insertEntries inserted = insertEntries inserted' := by
  refine insertEntries_eq_iff.mpr fun hashKey => entryFor?_perm ?_ ?_ hashKey
  · rw [List.map_reverse]
    exact List.nodup_reverse.mpr hnodup
  · exact (inserted.reverse_perm.trans hperm).trans inserted'.reverse_perm.symm

/-- Entries that stand in order already stay as they are. -/
theorem insertEntries_of_ascending (hascending : Ascending entries) :
    insertEntries entries = entries := by
  refine (ascending_insertEntries entries).eq_of_entryFor? hascending fun hashKey => ?_
  have hnodup : (entries.reverse.map Entry.hashKey).Nodup := by
    rw [List.map_reverse]
    exact List.nodup_reverse.mpr hascending.nodup
  rw [entryFor?_insertEntries, entryFor?_perm hnodup entries.reverse_perm]

end MonkeyLang
