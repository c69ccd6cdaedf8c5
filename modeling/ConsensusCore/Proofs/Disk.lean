import ConsensusCore.Log.Disk

/-!
# What operations change on a disk

A disk is seen here by what its paths refer to (`Disk.find?`) and what its files hold
(`Disk.content`), and each operation on a file in a directory by what it changes of
both. None of them takes a directory away, so that a route which leads to a directory
goes on to lead there (`Disk.locate_mono`).

Whether a route can be followed at all is a matter of its text (`Route.Valid`), and
where it leads is decided name by name: a directory *admits* a name if the route to it,
followed by the name, can be followed (`Route.Admits`).
-/

namespace ConsensusCore

namespace Route

/-- No name of the route has a character that is not allowed, and it is not too long. -/
def Valid (r : Route) : Prop :=
  (r.any fun name => name.toList.contains '\x00') = false ∧ r.toText.utf8ByteSize ≤ Disk.maxRoute

instance (r : Route) : Decidable r.Valid :=
  inferInstanceAs (Decidable (_ ∧ _))

/-- A name can be asked for in the directory that the route leads to. -/
def Admits (r : Route) (name : String) : Prop :=
  Valid (r ++ [name]) ∧ name.utf8ByteSize ≤ Disk.maxName

instance (r : Route) (name : String) : Decidable (r.Admits name) :=
  inferInstanceAs (Decidable (_ ∧ _))

/-- A name that leads to an entry of a directory, not to the directory or out of it. -/
def IsEntry (name : String) : Prop := stays name = false ∧ name ≠ ".."

instance (name : String) : Decidable (IsEntry name) :=
  inferInstanceAs (Decidable (_ ∧ _))

end Route

/-- Without what has one key, the other keys lead where they led. -/
theorem lookup_filter_ne {α β : Type} [BEq α] [LawfulBEq α] [DecidableEq α]
    (entries : List (α × β)) (p q : α) :
    (entries.filter fun e => !(e.1 == q)).lookup p =
      if p = q then none else entries.lookup p := by
  induction entries with
  | nil => simp
  | cons e entries ih =>
    obtain ⟨k, n⟩ := e
    by_cases hp : p = k
    · subst hp
      by_cases hq : p = q
      · rw [List.filter_cons_of_neg (by simp [hq]), ih, if_pos hq, if_pos hq]
      · rw [List.filter_cons_of_pos (by simp [hq]), List.lookup_cons_self, if_neg hq,
          List.lookup_cons_self]
    · have hpk : (p == k) = false := by simpa using hp
      rw [List.lookup_cons, hpk]
      by_cases hk : k = q
      · rw [List.filter_cons_of_neg (by simp [hk]), ih]
      · rw [List.filter_cons_of_pos (by simp [hk]), List.lookup_cons, hpk, ih]

namespace Disk

variable {d d' : Disk} {p q : Path} {r s : Route} {name : String} {n : Node} {id : FileId}

/-! ## Names -/

@[simp] theorem find?_root (d : Disk) : d.find? [] = some .directory := rfl

theorem find?_of_ne_root (hp : p ≠ []) : d.find? p = d.entries.lookup p := by
  simp [find?, hp]

theorem find?_erase (hp : p ≠ []) :
    (d.erase q).find? p = if p = q then none else d.find? p := by
  rw [find?_of_ne_root hp, find?_of_ne_root hp]
  exact lookup_filter_ne d.entries p q

theorem find?_erase_of_ne (hp : p ≠ q) : (d.erase q).find? p = d.find? p := by
  by_cases hroot : p = []
  · rw [hroot, find?_root, find?_root]
  · rw [find?_erase hroot, if_neg hp]

theorem find?_set (hp : p ≠ []) :
    (d.set q n).find? p = if p = q then some n else d.find? p := by
  rw [find?_of_ne_root hp, set, List.lookup_cons]
  by_cases h : p = q
  · simp [h]
  · have hpq : (p == q) = false := by simpa using h
    have := find?_erase (d := d) (q := q) hp
    rw [find?_of_ne_root hp, if_neg h] at this
    simpa [hpq, h] using this

/-! ## Routes -/

/-- Directories of one disk are directories of the other. -/
def KeepsDirs (d d' : Disk) : Prop :=
  ∀ p, d.find? p = some .directory → d'.find? p = some .directory

theorem KeepsDirs.trans {d'' : Disk} (h : d.KeepsDirs d') (h' : d'.KeepsDirs d'') :
    d.KeepsDirs d'' :=
  fun p hp => h' p (h p hp)

theorem keepsDirs_erase (hq : d.find? q ≠ some .directory) : d.KeepsDirs (d.erase q) := by
  intro p hp
  by_cases hnil : p = []
  · subst hnil; rfl
  · have hpq : p ≠ q := fun e => hq (e ▸ hp)
    rw [find?_erase hnil, if_neg hpq, hp]

theorem keepsDirs_set (hq : d.find? q ≠ some .directory) : d.KeepsDirs (d.set q n) := by
  intro p hp
  by_cases hnil : p = []
  · subst hnil; rfl
  · have hpq : p ≠ q := fun e => hq (e ▸ hp)
    rw [find?_set hnil, if_neg hpq, hp]

theorem locate_eq_ok_iff :
    d.locate r = .ok p ↔ r.Valid ∧ r.foldlM d.step [] = .ok p := by
  rw [locate, Route.Valid]
  split
  · next h => rw [h]; simp
  · next h =>
    rw [Bool.not_eq_true] at h
    rw [h]
    split
    · next h' => simp [Nat.not_le.2 h']
    · next h' => simp [Nat.not_lt.1 h']

theorem step_mono (h : d.KeepsDirs d') (hs : d.step p name = .ok q) :
    d'.step p name = .ok q := by
  rw [step] at hs ⊢
  split at hs
  · cases hs
  · cases hs
  · next hp =>
    rw [h p hp]
    exact hs

theorem foldlM_step_mono (h : d.KeepsDirs d') {p : Path} (hr : r.foldlM d.step p = .ok q) :
    r.foldlM d'.step p = .ok q := by
  induction r generalizing p with
  | nil => exact hr
  | cons name r ih =>
    rw [List.foldlM_cons] at hr ⊢
    cases hs : d.step p name with
    | error e => rw [hs] at hr; cases hr
    | ok p' =>
      rw [hs] at hr
      rw [step_mono h hs]
      exact ih hr

/-- A route leads on to where it has led, as long as the directories are there. -/
theorem locate_mono (h : d.KeepsDirs d') (hr : d.locate r = .ok p) : d'.locate r = .ok p := by
  rw [locate_eq_ok_iff] at hr ⊢
  exact ⟨hr.1, foldlM_step_mono h hr.2⟩

theorem step_entry (hp : d.find? p = some .directory) (hn : Route.IsEntry name) :
    d.step p name =
      if maxName < name.utf8ByteSize then .error .nameTooLong else .ok (p ++ [name]) := by
  rw [step]
  simp [hp, hn.1, hn.2]

/-- The route to an entry of a directory leads there if the directory admits the name. -/
theorem locate_entry (hr : d.locate r = .ok p) (hp : d.find? p = some .directory)
    (hn : Route.IsEntry name) : d.locate (r ++ [name]) = .ok q ↔
      r.Admits name ∧ q = p ++ [name] := by
  have hfold := (locate_eq_ok_iff.1 hr).2
  rw [locate_eq_ok_iff, List.foldlM_append, hfold, Route.Admits]
  change _ ∧ (List.foldlM d.step p [name]) = .ok q ↔ _
  rw [List.foldlM_cons, step_entry hp hn]
  by_cases hlen : maxName < name.utf8ByteSize
  · simp [hlen, Nat.not_le.2 hlen, bind, Except.bind]
  · simp [hlen, Nat.not_lt.1 hlen, bind, Except.bind, pure, Except.pure, eq_comm]

theorem resolve_eq_ok_iff : d.resolve r = .ok (p, n) ↔
    d.locate r = .ok p ∧ d.find? p = some n := by
  rw [resolve]
  cases hl : d.locate r with
  | error e => simp [bind, Except.bind]
  | ok p' =>
    simp only [bind, Except.bind]
    cases hf : d.find? p' with
    | none => simp; rintro rfl; simp [hf]
    | some n' => simp [pure, Except.pure]; rintro rfl; simp [hf]

/-- A route can only be followed through directories. -/
theorem foldlM_step_append {p : Path} (h : (r ++ s).foldlM d.step p = .ok q) :
    ∃ p', r.foldlM d.step p = .ok p' ∧
      (s = [] ∧ p' = q ∨ d.find? p' = some .directory) := by
  rw [List.foldlM_append] at h
  cases hr : r.foldlM d.step p with
  | error e => rw [hr] at h; cases h
  | ok p' =>
    rw [hr] at h
    refine ⟨p', rfl, ?_⟩
    cases s with
    | nil => exact .inl ⟨rfl, Except.ok.inj h⟩
    | cons name s =>
      -- the name that comes next is followed from there, which takes a directory
      right
      change (name :: s).foldlM d.step p' = .ok q at h
      rw [List.foldlM_cons] at h
      cases hf : d.find? p' with
      | none => simp [step, hf, bind, Except.bind] at h
      | some n =>
        cases n with
        | file id => simp [step, hf, bind, Except.bind] at h
        | directory => rfl

/-- A directory that is there need not be created. -/
theorem createDirs_of_directory (h : d.resolve r = .ok (p, .directory)) :
    d.createDirs r = (.ok (), d) := by
  obtain ⟨hloc, hdir⟩ := resolve_eq_ok_iff.1 h
  -- whatever is wrong with creating it again, no directory on the way is missing
  have hmake : ∃ e, d.makeDir r = .error e ∧ e ≠ .notFound := by
    rw [makeDir, locate]
    split
    · exact ⟨_, rfl, by decide⟩
    split
    · exact ⟨_, rfl, by decide⟩
    have hfold := (locate_eq_ok_iff.1 hloc).2
    have hsplit : r = r.dropSlashes ++ (r.reverse.takeWhile String.isEmpty).reverse := by
      rw [Route.dropSlashes, ← List.reverse_append, List.takeWhile_append_dropWhile,
        List.reverse_reverse]
    rw [hsplit] at hfold
    obtain ⟨p', hp', hend⟩ := foldlM_step_append hfold
    have hthere : d.find? p' = some .directory := by
      rcases hend with ⟨_, rfl⟩ | hd
      · exact hdir
      · exact hd
    exact ⟨.alreadyExists, by simp [hp', hthere, bind, Except.bind], by decide⟩
  obtain ⟨e, he, hne⟩ := hmake
  have hisDir : d.isDirectory r = true := by simp [isDirectory, h]
  rw [createDirs]
  rw [he]
  cases e <;> first | exact absurd rfl hne | simp [hisDir]

/-! ## Names in a directory -/

/-- The name of an entry in the directory at a place, if it is in that. -/
def nameIn (p : Path) (e : Path × Node) : Option String :=
  if e.1.dropLast = p then e.1.getLast? else none

/-- The names in the directory at a place. -/
def names (d : Disk) (p : Path) : List String := d.entries.filterMap (nameIn p)

theorem nameIn_eq_some {e : Path × Node} {name : String} :
    nameIn p e = some name ↔ e.1 = p ++ [name] := by
  rw [nameIn]
  constructor
  · intro h
    split at h
    next hdrop =>
      obtain ⟨front, hfront⟩ := List.getLast?_eq_some_iff.1 h
      rw [← hdrop, hfront, List.dropLast_concat]
    next => cases h
  · intro h
    rw [h, List.dropLast_concat, if_pos rfl, List.getLast?_concat]

/-- A name is in a directory if something is under it. -/
theorem mem_names : name ∈ d.names p ↔ ∃ n, d.find? (p ++ [name]) = some n := by
  have hne : p ++ [name] ≠ [] := by simp
  simp only [names, List.mem_filterMap, nameIn_eq_some, find?_of_ne_root hne,
    ← Option.isSome_iff_exists, List.lookup_isSome_iff, beq_iff_eq]
  exact exists_congr fun e => and_congr_right fun _ => eq_comm

theorem list_of_directory (h : d.resolve r = .ok (p, .directory)) : d.list r = .ok (d.names p) := by
  rw [list, h]
  rfl

theorem mem_list {names : List String} (hr : d.locate r = .ok p) (h : d.list r = .ok names) :
    name ∈ names ↔ ∃ n, d.find? (p ++ [name]) = some n := by
  rw [list] at h
  split at h
  next p' hd =>
    cases hr.symm.trans (resolve_eq_ok_iff.1 hd).1
    cases h
    exact mem_names
  next => cases h
  next => cases h

/-! ## Files -/

@[simp] theorem find?_setContent (d : Disk) (id : FileId) (bs : Bytes) (p : Path) :
    (d.setContent id bs).find? p = d.find? p := rfl

@[simp] theorem length_contents_setContent (d : Disk) (id : FileId) (bs : Bytes) :
    (d.setContent id bs).contents.length = d.contents.length :=
  List.length_set

theorem content_setContent {id' : FileId} (hid : id < d.contents.length) (bs : Bytes) :
    (d.setContent id bs).content id' = if id' = id then bs else d.content id' := by
  simp only [content, setContent, List.getElem?_set]
  by_cases h : id = id'
  · subst h
    simp [hid]
  · simp [h, Ne.symm h]

/-- Without the file there is nothing to be replaced. -/
theorem setContent_of_le (hid : d.contents.length ≤ id) (bs : Bytes) : d.setContent id bs = d := by
  rw [setContent, List.set_eq_of_length_le hid]

/-- What a disk is like without a change of the content of a file. -/
theorem setContent_content (d : Disk) (id : FileId) : d.setContent id (d.content id) = d := by
  by_cases hid : id < d.contents.length
  · rw [setContent, content, List.getElem?_eq_getElem hid, Option.getD_some,
      List.set_getElem_self]
  · exact setContent_of_le (Nat.not_lt.1 hid) _

theorem setContent_setContent (d : Disk) (id : FileId) (bs bs' : Bytes) :
    (d.setContent id bs).setContent id bs' = d.setContent id bs' := by
  rw [setContent, setContent, setContent, List.set_set]

@[simp] theorem append_nil (d : Disk) (id : FileId) : d.append id [] = d := by
  rw [append, List.append_nil, setContent_content]

theorem append_append (d : Disk) (id : FileId) (bs bs' : Bytes) :
    (d.append id bs).append id bs' = d.append id (bs ++ bs') := by
  by_cases hid : id < d.contents.length
  · rw [append, append, content_setContent hid, if_pos rfl, setContent_setContent,
      List.append_assoc, append]
  · simp only [append, setContent_of_le (Nat.not_lt.1 hid)]

theorem content_append {id' : FileId} (hid : id < d.contents.length) (bs : Bytes) :
    (d.append id bs).content id' = d.content id' ++ if id' = id then bs else [] := by
  rw [append, content_setContent hid]
  split
  · next h => rw [h]
  · rw [List.append_nil]

/-- The file that is created next is empty. -/
theorem content_length_contents (d : Disk) : d.content d.contents.length = [] := by
  rw [content, List.getElem?_eq_none (Nat.le_refl _)]
  rfl

theorem keepsDirs_setContent (d : Disk) (id : FileId) (bs : Bytes) :
    d.KeepsDirs (d.setContent id bs) :=
  fun _ hp => hp

theorem fileAt_of_file (hr : d.resolve r = .ok (p, .file id)) : d.fileAt r = .ok id := by
  simp [fileAt, hr]

theorem exists_of_fileAt (h : d.fileAt r = .ok id) : ∃ p, d.resolve r = .ok (p, .file id) := by
  rw [fileAt] at h
  split at h
  · next p id' hr =>
    cases h
    exact ⟨p, hr⟩
  · cases h
  · cases h

/-- Opening a file that is there changes nothing. -/
theorem openFile_of_file (hr : d.locate r = .ok p) (hp : d.find? p = some (.file id)) :
    d.openFile r = .ok (d, id) := by
  simp [openFile, hr, hp, bind, Except.bind, pure, Except.pure]

/-- The disk with a new, empty file under a name. -/
def create (d : Disk) (p : Path) : Disk :=
  { d.set p (.file d.contents.length) with contents := d.contents ++ [[]] }

theorem openFile_of_none (hr : d.locate r = .ok p) (hp : d.find? p = none) :
    d.openFile r = .ok (d.create p, d.contents.length) := by
  simp [openFile, hr, hp, bind, Except.bind, pure, Except.pure, create]

theorem find?_create (hp : p ≠ []) :
    (d.create q).find? p = if p = q then some (.file d.contents.length) else d.find? p :=
  find?_set hp

@[simp] theorem length_contents_create (d : Disk) (p : Path) :
    (d.create p).contents.length = d.contents.length + 1 := by
  simp [create]

theorem content_create (d : Disk) (p : Path) (id : FileId) :
    (d.create p).content id = d.content id := by
  simp only [content, create, List.getElem?_append]
  split
  · rfl
  · next h =>
    rw [List.getElem?_eq_none (Nat.not_lt.1 h)]
    cases h' : [([] : Bytes)][id - d.contents.length]? with
    | none => rfl
    | some bs => simp [List.getElem?_singleton] at h'; simp [← h'.2]

theorem rename_file (hr : d.resolve r = .ok (p, .file id)) (hs : d.locate s = .ok q)
    (hq : d.find? q ≠ some .directory) :
    d.rename r s = .ok ((d.erase p).set q (.file id)) := by
  rw [rename]
  simp only [hr, hs, bind, Except.bind]
  rfl

theorem remove_file (hr : d.resolve r = .ok (p, .file id)) : d.remove r = .ok (d.erase p) := by
  simp [remove, hr]

end Disk

end ConsensusCore
