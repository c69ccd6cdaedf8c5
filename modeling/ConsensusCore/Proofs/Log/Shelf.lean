import ConsensusCore.Log.Group
import ConsensusCore.Proofs.Log.Segment

/-!
# The files of a log

What the directory of a log holds, when nobody but the log has put anything into it, is
a *shelf*: the files of the tails, numbered without gaps, and that of the head, unless
it is missing (`Shelf.On`). All of them are different files.

The steps that a log is operated in turn one shelf into another: the head is sealed, a
head is put in place, the oldest tail is taken away. None of them changes the content of
a file, and the content of a file can be changed without changing the shelf.
-/

namespace ConsensusCore

open LogConfig Segment

/-- The files of a log by their numbers, and the directory that they are in. -/
structure Shelf where
  /-- The route to the directory. -/
  dir : Route
  /-- The directory. -/
  place : Path
  /-- The number of the oldest segment. -/
  first : Nat
  /-- The files of the tails, the oldest first. -/
  tails : List FileId
  /-- The file of the head. -/
  head : Option FileId

namespace Shelf

/-- The number of the head. -/
def last (s : Shelf) : Nat := s.first + s.tails.length

/-- The files of all segments. -/
def files (s : Shelf) : List FileId := s.tails ++ s.head.toList

/-- A name, and the file that it is the name of. -/
inductive Names (s : Shelf) : String → FileId → Prop
  | head {id : FileId} : s.head = some id → Names s headName id
  | tail {i : Nat} {id : FileId} : s.tails[i]? = some id → Names s (tailName (s.first + i)) id

/-- The shelf with its head sealed. -/
def sealHead (s : Shelf) (id : FileId) : Shelf := { s with tails := s.tails ++ [id], head := none }

/-- The shelf with a head. -/
def withHead (s : Shelf) (id : FileId) : Shelf := { s with head := some id }

/-- The shelf without its oldest tails. -/
def drop (s : Shelf) (k : Nat) : Shelf := { s with first := s.first + k, tails := s.tails.drop k }

/-- The shelf, numbered from 0 on if it has no tails. -/
def renumber (s : Shelf) : Shelf := { s with first := if s.tails = [] then 0 else s.first }

/-- A disk has the files in the directory, and nothing else. -/
structure On (s : Shelf) (d : Disk) : Prop where
  locate : d.locate s.dir = .ok s.place
  isDir : d.find? s.place = some .directory
  find? : ∀ name n, d.find? (s.place ++ [name]) = some n ↔ ∃ id, n = .file id ∧ s.Names name id
  admits : ∀ name id, s.Names name id → s.dir.Admits name
  nodup : s.files.Nodup
  lt : ∀ id ∈ s.files, id < d.contents.length

variable {s s' : Shelf} {d d' : Disk} {name : String} {id : FileId}

/-! ## Names -/

theorem names_iff : s.Names name id ↔ (name = headName ∧ s.head = some id) ∨
    ∃ i, name = tailName (s.first + i) ∧ s.tails[i]? = some id := by
  constructor
  · rintro (h | h)
    · exact .inl ⟨rfl, h⟩
    · exact .inr ⟨_, rfl, h⟩
  · rintro (⟨rfl, h⟩ | ⟨i, rfl, h⟩)
    · exact .head h
    · exact .tail h

theorem Names.isEntry (h : s.Names name id) : Route.IsEntry name := by
  cases h with
  | head => exact isEntry_headName
  | tail => exact isEntry_tailName _

/-- The head is none of the tails. -/
theorem ne_of_mem_tails {f : FileId} (hnodup : s.files.Nodup) (hid : s.head = some id)
    (hf : f ∈ s.tails) : f ≠ id := by
  rintro rfl
  simp only [files, hid, Option.toList_some, List.nodup_append] at hnodup
  exact hnodup.2.2 f hf f (List.mem_singleton_self f) rfl

theorem names_head_iff : s.Names headName id ↔ s.head = some id := by
  rw [names_iff]
  constructor
  · rintro (⟨_, h⟩ | ⟨i, h, _⟩)
    · exact h
    · exact absurd h.symm (tailName_ne_headName _)
  · exact fun h => .inl ⟨rfl, h⟩

/-- Only the number decides what a tail is the file of. -/
theorem names_tail_iff {i : Nat} :
    s.Names (tailName i) id ↔ ∃ k, i = s.first + k ∧ s.tails[k]? = some id := by
  rw [names_iff]
  constructor
  · rintro (⟨h, _⟩ | ⟨k, h, hk⟩)
    · exact absurd h (tailName_ne_headName _)
    · exact ⟨k, tailName_injective h, hk⟩
  · rintro ⟨k, rfl, hk⟩
    exact .inr ⟨k, rfl, hk⟩

theorem names_oldest {rest : List FileId} (ht : s.tails = id :: rest) :
    s.Names (tailName s.first) id :=
  names_tail_iff.2 ⟨0, rfl, by rw [ht]; rfl⟩

theorem not_names_last : ¬s.Names (tailName s.last) id := by
  rw [names_tail_iff]
  rintro ⟨k, hk, hid⟩
  have := (List.getElem?_eq_some_iff.1 hid).1
  simp only [last] at hk
  omega

theorem names_sealHead {id' : FileId} : (s.sealHead id).Names name id' ↔
    (name = tailName s.last ∧ id' = id) ∨ (name ≠ headName ∧ s.Names name id') := by
  constructor
  · rintro (h | h)
    · cases h
    · rename_i i
      change (s.tails ++ [id])[i]? = some id' at h
      by_cases hi : i < s.tails.length
      · rw [List.getElem?_append_left hi] at h
        exact .inr ⟨tailName_ne_headName _, .tail h⟩
      · rw [List.getElem?_append_right (Nat.not_lt.1 hi), List.getElem?_singleton] at h
        split at h
        · next h0 =>
          have hlast : i = s.tails.length := by omega
          exact .inl ⟨by rw [hlast]; rfl, (Option.some.inj h).symm⟩
        · cases h
  · rintro (⟨rfl, rfl⟩ | ⟨hne, h | h⟩)
    · exact .tail (s := s.sealHead id') (by simp [Shelf.sealHead])
    · exact absurd rfl hne
    · have hi := (List.getElem?_eq_some_iff.1 h).1
      exact .tail (s := s.sealHead id) ((List.getElem?_append_left hi).trans h)

theorem names_withHead (hhead : s.head = none) {id' : FileId} :
    (s.withHead id).Names name id' ↔ (name = headName ∧ id' = id) ∨ s.Names name id' := by
  simp only [names_iff, withHead, hhead]
  constructor
  · rintro (⟨rfl, h⟩ | h)
    · exact .inl ⟨rfl, (Option.some.inj h).symm⟩
    · exact .inr (.inr h)
  · rintro (⟨rfl, rfl⟩ | ⟨_, h⟩ | h)
    · exact .inl ⟨rfl, rfl⟩
    · cases h
    · exact .inr h

theorem names_drop_one {oldest : FileId} {rest : List FileId} (ht : s.tails = oldest :: rest) :
    (s.drop 1).Names name id ↔ name ≠ tailName s.first ∧ s.Names name id := by
  simp only [names_iff, drop, ht, List.drop_succ_cons, List.drop_zero]
  constructor
  · rintro (⟨rfl, h⟩ | ⟨i, rfl, h⟩)
    · exact ⟨(tailName_ne_headName _).symm, .inl ⟨rfl, h⟩⟩
    · refine ⟨fun e => ?_, .inr ⟨i + 1, by rw [Nat.add_assoc, Nat.add_comm 1], h⟩⟩
      have := tailName_injective e
      omega
  · rintro ⟨hne, ⟨rfl, h⟩ | ⟨_ | i, rfl, h⟩⟩
    · exact .inl ⟨rfl, h⟩
    · exact absurd rfl hne
    · exact .inr ⟨i, by rw [Nat.add_assoc, Nat.add_comm 1], h⟩

@[simp] theorem drop_zero (s : Shelf) : s.drop 0 = s := rfl

theorem drop_drop (s : Shelf) (j k : Nat) : (s.drop j).drop k = s.drop (k + j) := by
  simp only [drop, List.drop_drop, Nat.add_assoc, Nat.add_comm j]

theorem files_drop {k : Nat} (hk : k ≤ s.tails.length) : (s.drop k).files = s.files.drop k :=
  (List.drop_append_of_le_length hk).symm

theorem last_drop {k : Nat} (hk : k ≤ s.tails.length) : (s.drop k).last = s.last := by
  simp only [last, drop, List.length_drop]
  omega

/-- The names of the tails that are dropped are not on the shelf any more. -/
theorem not_names_drop {j k : Nat} (hj : j < k) : ¬(s.drop k).Names (tailName (s.first + j)) id := by
  intro hn
  obtain ⟨i, hi, -⟩ := names_tail_iff.1 hn
  simp only [drop] at hi
  omega

theorem last_renumber_le (s : Shelf) : s.renumber.last ≤ s.last := by
  simp only [last, renumber]
  split <;> omega

theorem names_renumber : s.renumber.Names name id ↔ s.Names name id := by
  by_cases ht : s.tails = [] <;> simp [names_iff, renumber, ht]

namespace On

variable (h : s.On d)
include h

theorem lt_head (hhead : s.head = some id) : id < d.contents.length :=
  h.lt id (by simp [files, hhead])

theorem resolve (hn : s.Names name id) :
    d.resolve (s.dir ++ [name]) = .ok (s.place ++ [name], .file id) := by
  rw [Disk.resolve_eq_ok_iff, Disk.locate_entry h.locate h.isDir hn.isEntry, h.find?]
  exact ⟨⟨h.admits _ _ hn, rfl⟩, id, rfl, hn⟩

theorem find?_eq_none (hn : ∀ id, ¬s.Names name id) : d.find? (s.place ++ [name]) = none := by
  cases hf : d.find? (s.place ++ [name]) with
  | none => rfl
  | some n =>
    obtain ⟨id, _, hid⟩ := (h.find? _ _).1 hf
    exact absurd hid (hn id)

/-- Nothing on the shelf is a directory. -/
theorem find?_ne_directory (name : String) : d.find? (s.place ++ [name]) ≠ some .directory := by
  intro hf
  obtain ⟨_, hd, _⟩ := (h.find? _ _).1 hf
  cases hd

/-- The files in the directory are those on the shelf. -/
theorem fileAt_eq_ok_iff (hentry : Route.IsEntry name) :
    d.fileAt (s.dir ++ [name]) = .ok id ↔ s.Names name id := by
  constructor
  · intro hf
    rw [Disk.fileAt] at hf
    split at hf
    · next p id' hr =>
      obtain ⟨hl, hp⟩ := Disk.resolve_eq_ok_iff.1 hr
      rw [Disk.locate_entry h.locate h.isDir hentry] at hl
      rw [hl.2, h.find?] at hp
      obtain ⟨_, hid, hname⟩ := hp
      cases hf
      cases hid
      exact hname
    · cases hf
    · cases hf
  · exact fun hn => Disk.fileAt_of_file (h.resolve hn)

/-! ## Steps -/

theorem setContent (id : FileId) (bs : Bytes) : s.On (d.setContent id bs) where
  locate := Disk.locate_mono (Disk.keepsDirs_setContent d id bs) h.locate
  isDir := h.isDir
  find? := h.find?
  admits := h.admits
  nodup := h.nodup
  lt := fun id' hid => by
    rw [Disk.length_contents_setContent]
    exact h.lt id' hid

theorem renumber : s.renumber.On d := by
  refine ⟨h.locate, h.isDir, fun name n => ?_, fun name id hn => ?_, h.nodup, h.lt⟩
  · simp only [names_renumber]
    exact h.find? name n
  · exact h.admits name id (names_renumber.1 hn)

/-- Sealing the head gives it the next name of a tail. -/
theorem sealHead (hhead : s.head = some id) (hadm : s.dir.Admits (tailName s.last)) :
    (s.sealHead id).On
      ((d.erase (s.place ++ [headName])).set (s.place ++ [tailName s.last]) (.file id)) := by
  have hkeep : d.KeepsDirs
      ((d.erase (s.place ++ [headName])).set (s.place ++ [tailName s.last]) (.file id)) := by
    refine (Disk.keepsDirs_erase (h.find?_ne_directory _)).trans (Disk.keepsDirs_set ?_)
    rw [Disk.find?_erase (by simp)]
    split
    · simp
    · exact h.find?_ne_directory _
  have hfiles : (s.sealHead id).files = s.files := by simp [files, Shelf.sealHead, hhead]
  -- of all names, only those of the old head and of the new tail refer to something else
  refine ⟨Disk.locate_mono hkeep h.locate, hkeep _ h.isDir, fun name n => ?_, fun name id' hn => ?_,
    hfiles ▸ h.nodup, hfiles ▸ h.lt⟩
  · change Disk.find? _ (s.place ++ [name]) = _ ↔ _
    rw [Disk.find?_set (by simp), Disk.find?_erase (by simp)]
    simp only [List.append_cancel_left_eq, List.cons.injEq, and_true, names_sealHead]
    by_cases hlast : name = tailName s.last
    · subst hlast
      simp [not_names_last, eq_comm]
    · by_cases hname : name = headName
      · simp [hname, (tailName_ne_headName s.last).symm]
      · simp [hlast, hname, h.find? name n]
  · rcases names_sealHead.1 hn with ⟨rfl, _⟩ | ⟨_, hn'⟩
    · exact hadm
    · exact h.admits _ _ hn'

/-- A shelf without a head gets an empty one. -/
theorem create (hhead : s.head = none) (hadm : s.dir.Admits headName) :
    (s.withHead d.contents.length).On (d.create (s.place ++ [headName])) := by
  have hkeep : d.KeepsDirs (d.create (s.place ++ [headName])) :=
    Disk.keepsDirs_set (h.find?_ne_directory _)
  refine ⟨Disk.locate_mono hkeep h.locate, hkeep _ h.isDir, fun name n => ?_, fun name id' hn => ?_,
    ?_, ?_⟩
  · change Disk.find? _ (s.place ++ [name]) = _ ↔ _
    rw [Disk.find?_create (by simp)]
    simp only [List.append_cancel_left_eq, List.cons.injEq, and_true, names_withHead hhead]
    by_cases hname : name = headName
    · subst hname
      simp [names_head_iff, hhead, eq_comm]
    · simp [hname, h.find? name n]
  · rcases (names_withHead hhead).1 hn with ⟨rfl, _⟩ | hn'
    · exact hadm
    · exact h.admits _ _ hn'
  · have hnodup := h.nodup
    have hlt := h.lt
    simp only [files, hhead, Option.toList_none, List.append_nil] at hnodup hlt
    -- the number of the new file is the first that no other file has
    simp only [files, withHead, Option.toList_some, List.nodup_append, hnodup]
    refine ⟨trivial, by simp, ?_⟩
    rintro a ha b hb rfl
    exact Nat.lt_irrefl _ (List.mem_singleton.1 hb ▸ hlt a ha)
  · intro id' hid
    have hlt := h.lt
    simp only [files, hhead, Option.toList_none, List.append_nil] at hlt
    simp only [files, withHead, Option.toList_some, List.mem_append, List.mem_singleton] at hid
    rw [Disk.length_contents_create]
    rcases hid with hid | rfl
    · exact Nat.lt_succ_of_lt (hlt _ hid)
    · exact Nat.lt_succ_self _

/-- Without its oldest tail, the shelf begins with the next number. -/
theorem drop_one {oldest : FileId} {rest : List FileId} (ht : s.tails = oldest :: rest) :
    (s.drop 1).On (d.erase (s.place ++ [tailName s.first])) := by
  have hkeep : d.KeepsDirs (d.erase (s.place ++ [tailName s.first])) :=
    Disk.keepsDirs_erase (h.find?_ne_directory _)
  have hsub : (s.drop 1).files.Sublist s.files := by
    simp only [files, Shelf.drop, ht, List.drop_succ_cons, List.drop_zero, List.cons_append]
    exact List.sublist_cons_self _ _
  refine ⟨Disk.locate_mono hkeep h.locate, hkeep _ h.isDir, fun name n => ?_, fun name id' hn => ?_,
    h.nodup.sublist hsub, fun id' hid => h.lt id' (hsub.subset hid)⟩
  · change Disk.find? _ (s.place ++ [name]) = _ ↔ _
    rw [Disk.find?_erase (by simp)]
    simp only [List.append_cancel_left_eq, List.cons.injEq, and_true, names_drop_one ht]
    by_cases hname : name = tailName s.first
    · simp [hname]
    · simp [hname, h.find? name n]
  · exact h.admits _ _ ((names_drop_one ht).1 hn).2

end On

end Shelf

end ConsensusCore
