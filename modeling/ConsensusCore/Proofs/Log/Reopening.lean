import ConsensusCore.Proofs.Log.Clearing

/-!
# What a group knows of its files

A group that is open has the numbers of its segments and the length of its head in memory, and
changes them along with the files (`Group.Accounts`). A group that is opened reads the numbers
off the names in the directory, and the length off the head. So nothing is lost when a log is
closed and opened again, except that without tails there is no number to be read, and the head
has the number 0 then.

* `Group.OpenOn.accounts`: a group that is open on a shelf knows its files;
* `Group.OpenOn.openIn_again`: a group that is opened on that shelf knows the same;
* `Workbench.accounts_and_reopens`: so it is after any run in an empty directory.
-/

namespace ConsensusCore

open LogConfig Segment

namespace Group

/-- The files in the directory of a group are those that it takes for its segments, and what it
    takes for the length of the head is that. -/
structure Accounts (g : Group) (d : Disk) : Prop where
  le : g.minIndex ≤ g.maxIndex
  names : ∃ names, d.list (dir g.config) = .ok names ∧ ∀ name, name ∈ names ↔
    name = headName ∨ ∃ i, g.minIndex ≤ i ∧ i < g.maxIndex ∧ name = tailName i
  files : ∀ i, g.minIndex ≤ i → i ≤ g.maxIndex → ∃ f, d.fileAt (g.segmentRoute i) = .ok f
  head : ∃ f, g.head = some f ∧ d.fileAt (headRoute g.config) = .ok f ∧
    g.headSize = (d.content f).length

/-- The group that is opened where a group has been open. -/
def reopened (g : Group) (config : LogConfig) : Group where
  config
  head := g.head
  headSize := g.headSize
  minIndex := if g.minIndex = g.maxIndex then 0 else g.minIndex
  maxIndex := if g.minIndex = g.maxIndex then 0 else g.maxIndex

namespace OpenOn

variable {g : Group} {s : Shelf} {id : FileId} {d : Disk} {config : LogConfig}
variable (h : g.OpenOn s id d)
include h

theorem accounts : g.Accounts d := by
  refine ⟨?_, ⟨d.names s.place, ?_, fun name => ?_⟩, fun i hmin hmax => ?_,
    id, h.head, Disk.fileAt_of_file h.resolve_head, h.size⟩
  · rw [h.min, h.max]
    exact Nat.le_add_right _ _
  · rw [h.dir]
    exact Disk.list_of_directory (Disk.resolve_eq_ok_iff.2 ⟨h.on.locate, h.on.isDir⟩)
  · rw [Disk.mem_names]
    constructor
    · rintro ⟨n, hn⟩
      obtain ⟨f, -, hf⟩ := (h.on.find? name n).1 hn
      rcases Shelf.names_iff.1 hf with ⟨hname, -⟩ | ⟨k, hname, hk⟩
      · exact .inl hname
      · have hlt := (List.getElem?_eq_some_iff.1 hk).1
        refine .inr ⟨s.first + k, ?_, ?_, hname⟩
        · rw [h.min]
          exact Nat.le_add_right _ _
        · rw [h.max, Shelf.last]
          omega
    · rintro (rfl | ⟨i, hmin, hmax, rfl⟩)
      · exact ⟨_, (h.on.find? _ _).2 ⟨id, rfl, .head h.shelf⟩⟩
      · rw [h.min] at hmin
        rw [h.max, Shelf.last] at hmax
        obtain ⟨k, rfl⟩ := Nat.exists_eq_add_of_le hmin
        have hk : k < s.tails.length := by omega
        exact ⟨_, (h.on.find? _ _).2 ⟨_, rfl, .tail (List.getElem?_eq_getElem hk)⟩⟩
  · rw [h.min] at hmin
    rw [h.max, Shelf.last] at hmax
    obtain ⟨k, rfl⟩ := Nat.exists_eq_add_of_le hmin
    have hk : k < s.files.length := by
      rw [h.files, List.length_append, List.length_singleton]
      omega
    obtain ⟨p, hp⟩ := h.resolve_segment (List.getElem?_eq_getElem hk)
    exact ⟨_, Disk.fileAt_of_file hp⟩

/-- Without tails the shelf begins with the head. -/
theorem min_eq_max_iff : g.minIndex = g.maxIndex ↔ s.tails = [] := by
  rw [h.min, h.max, Shelf.last, ← List.length_eq_zero_iff]
  omega

/-- If nothing in the head is to be repaired, opening the segments once more leaves the disk as
    it is, and finds what the group has known. -/
theorem openIn_again (hdir : Group.dir config = s.dir) (hlast : s.last ≤ Saturating.ceiling)
    (hwhole : Record.repaired config.maxRecordSize (d.content id) = d.content id) :
    openIn config d = (.ok (g.reopened config), d) := by
  obtain ⟨g', hopen, h', rfl⟩ := openIn_of_head h.on hdir hlast h.shelf hwhole
  rw [Disk.setContent_content] at hopen h'
  rw [hopen]
  obtain ⟨config, head, headSize, minIndex, maxIndex⟩ := g'
  have hmin : minIndex = s.renumber.first := h'.min
  have hmax : maxIndex = s.renumber.last := h'.max
  have hsize : headSize = g.headSize := h'.size.trans h.size.symm
  have hhead : head = g.head := h'.head.trans h.head.symm
  simp only [reopened, h.min_eq_max_iff, hmin, hmax, hsize, hhead, Shelf.last, Shelf.renumber]
  by_cases ht : s.tails = []
  · simp [ht]
  · simp only [ht, if_false, h.min, h.max, Shelf.last]

end OpenOn

end Group

namespace Workbench

/-- After any run in an empty directory, in which the log may also be cleared, a log that is
    open knows its files: the head and the tails with the numbers from the lowest to below the
    highest, and nothing else, are in its directory, and the head is as long as it takes it to
    be. If it is closed and opened again, with whatever limits, no file is changed and none is
    deleted, and it knows the same as before, but for the numbers if there are no tails. -/
theorem accounts_and_reopens {ok : LogConfig → Prop} {dir : String} {w : Workbench}
    (hok : ∀ config, ok config → config.dir = dir)
    (hdir : w.disk.list (.ofText dir) = .ok []) (hgroup : w.group = none) {es : List Incident}
    (hes : ∀ e ∈ es, e.Uses ok) (hrotations : w.rotations dir es < 2 ^ 64) {g : Group}
    (hg : (w.after dir es).group = some g) (hopen : g.isClosed = false) :
    g.Accounts (w.after dir es).disk ∧
      ∀ (config : LogConfig) (watched : Bool), config.dir = dir → config.validate = .ok () →
        ∃ closed reopened, (w.after dir es).run .close = (.done, closed) ∧
          closed.group = some g.close ∧ closed.disk = (w.after dir es).disk ∧
          closed.run (.openLog config watched) = (.done, reopened) ∧
          reopened.group = some (g.reopened config) ∧
          reopened.disk = (w.after dir es).disk := by
  obtain ⟨s, c, rest, hkept, hlast⟩ := Kept.of_use hok hdir hgroup es hes hrotations
  obtain ⟨rfl, id, hid⟩ := hkept.opened g hg hopen
  refine ⟨hid.accounts, fun config watched hconfig hvalid => ?_⟩
  -- the head consists of whole records, which fit whatever length is allowed for them
  have hcontent := hkept.fill.head_content hid.shelf
  rw [List.append_nil] at hcontent
  have hwhole : Record.repaired config.maxRecordSize ((w.after dir es).disk.content id) =
      (w.after dir es).disk.content id := by
    rw [hcontent]
    exact repaired_frames fun m hm => (hkept.storable m (List.mem_append_right _ hm)).1
  have hagain : Group.openIn config (w.after dir es).disk =
      (.ok (g.reopened config), (w.after dir es).disk) :=
    hid.openIn_again (by rw [hkept.dir, Group.dir, hconfig])
      (Nat.le_trans hlast (Nat.le_pred_of_lt hrotations)) hwhole
  have hclose : (w.after dir es).run .close =
      (.done, { w.after dir es with group := some g.close }) := by
    simp only [run, withLog, hg, putLog, Log.close]
  refine ⟨_, (run { w.after dir es with group := some g.close } (.openLog config watched)).2,
    hclose, rfl, rfl, ?_, ?_, ?_⟩
  · simp only [run, Log.openIn, hvalid, disk_dropLog, hagain]
  · rw [(run_openLog hvalid watched).2, hagain]
    rfl
  · rw [(run_openLog hvalid watched).1, hagain]

/-- A run in which a log is cleared, and then loses the first of three tails to its limit. -/
def clearedAndTrimmed : List WorkbenchAction :=
  let config := { LogConfig.dev "root" with headSizeLimit := 20, totalSizeLimit := 60 }
  [.openLog config false, .write (.endHeight ⟨4⟩), .rotate, .clear, .openLog config false,
    .write (.endHeight ⟨5⟩), .checkLimits, .write (.endHeight ⟨6⟩), .checkLimits,
    .write (.endHeight ⟨7⟩), .checkLimits, .write (.endHeight ⟨8⟩)]

theorem group_clearedAndTrimmed :
    (((empty "root").after "root" (clearedAndTrimmed.map .act)).group.any fun g =>
      !g.isClosed && g.minIndex == 1 && g.maxIndex == 3 && g.headSize == 25) = true := by
  decide +kernel

/-- The log goes on with the tails 1 and 2 and with its head when it is opened again. -/
theorem reopens_clearedAndTrimmed : ∃ g closed reopened,
    ((empty "root").after "root" (clearedAndTrimmed.map .act)).group = some g ∧
      ((empty "root").after "root" (clearedAndTrimmed.map .act)).run .close = (.done, closed) ∧
      closed.run (.openLog (.dev "root") false) = (.done, reopened) ∧
      reopened.group = some ⟨.dev "root", g.head, 25, 1, 3⟩ ∧
      reopened.disk = ((empty "root").after "root" (clearedAndTrimmed.map .act)).disk := by
  obtain ⟨g, hg, hall⟩ := (Option.any_eq_true _ _).1 group_clearedAndTrimmed
  simp only [Bool.and_eq_true, Bool.not_eq_true', beq_iff_eq] at hall
  obtain ⟨⟨⟨hopen, hmin⟩, hmax⟩, hsize⟩ := hall
  have hes : ∀ e ∈ clearedAndTrimmed.map Incident.act, e.Uses (·.dir = "root") := by
    simp [clearedAndTrimmed, Incident.Uses, Incident.Operates, WorkbenchAction.Operates,
      LogConfig.dev]
  have hrotations : (empty "root").rotations "root" (clearedAndTrimmed.map .act) < 2 ^ 64 :=
    Nat.lt_of_le_of_lt (rotations_le_length _ _ _) (by decide)
  obtain ⟨-, hreopens⟩ := accounts_and_reopens (fun _ h => h)
    (rfl : (empty "root").disk.list (.ofText "root") = .ok []) rfl hes hrotations hg hopen
  obtain ⟨closed, reopened, hclose, -, -, hopen', hgroup, hdisk⟩ :=
    hreopens (.dev "root") false rfl rfl
  refine ⟨g, closed, reopened, hg, hclose, hopen', ?_, hdisk⟩
  rw [hgroup, Group.reopened, hmin, hmax, hsize]
  rfl

end Workbench

end ConsensusCore
