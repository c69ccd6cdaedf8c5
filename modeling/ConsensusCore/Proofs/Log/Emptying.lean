import ConsensusCore.Proofs.Log.Folder
import Mathlib.Data.List.Pairwise
import Mathlib.Tactic.ByContra

/-!
# Clearing a log among other files

To clear a log, the names in its directory are read, and for each that is read as the name of a
tail the tail with that number is deleted, under the name that the log gives to it. So there is
nothing to delete if that is another name: the number 7 is read from `WAL.7` as well, but the tail
is deleted as `WAL.007`. Then clearing fails, after it has deleted the head.

If all such names are those that the log gives (`Group.Regular`), then the head and all tails
are gone, and nothing else is (`Group.Emptied`); and only then.

* `Group.removeFiles_iff`: when all segments can be deleted, and what that leaves;
* `Workbench.clears_iff`: clearing a log after any use.
-/

namespace ConsensusCore

open LogConfig Segment

/-! ## Names -/

theorem Segment.index?_le {name : String} {i : Nat} (h : index? name = some i) :
    i ≤ Saturating.ceiling := by
  simp only [index?] at h
  split at h
  next =>
    rw [number?] at h
    split at h
    next =>
      split at h
      next hle =>
        cases h
        exact hle
      next => cases h
    next => cases h
  next => cases h

namespace Group

variable {config : LogConfig} {p : Path} {d d' d'' : Disk} {g g' : Group} {name : String} {i : Nat}

/-- Every name that is read as the name of a tail is the one that the log gives to it. -/
def Regular (config : LogConfig) (p : Path) (d : Disk) : Prop :=
  ∀ name i, d.find? (p ++ [name]) ≠ none → index? name = some i →
    name = tailName i ∧ (dir config).Admits name

/-- The segments are gone from the directory, and all else is as it was. -/
structure Emptied (p : Path) (d d' : Disk) : Prop where
  head : d'.find? (p ++ [headName]) = none
  tails : ∀ name i, index? name = some i → d'.find? (p ++ [name]) = none
  others : ∀ q, (∀ name, q = p ++ [name] → name ≠ headName ∧ index? name = none) →
    d'.find? q = d.find? q
  contents : d'.contents = d.contents

/-- Where there are no tails, no numbers are read from names. -/
theorem filterMap_index?_eq_nil
    (htails : ∀ name i, index? name = some i → d.find? (p ++ [name]) = none) :
    (d.names p).filterMap index? = [] := by
  refine List.filterMap_eq_nil_iff.2 fun name hname => ?_
  cases hi : index? name with
  | none => rfl
  | some i =>
    obtain ⟨n, hn⟩ := Disk.mem_names.1 hname
    cases hn.symm.trans (htails name i hi)

/-- The log's own names are those of the head and of tails. -/
theorem Own.cases (h : Own config name) : name = headName ∨ ∃ i, index? name = some i := by
  cases h with
  | head => exact .inl rfl
  | tail hle _ => exact .inr ⟨_, index?_tailName hle⟩

theorem own_iff (hi : index? name = some i) :
    Own config name ↔ name = tailName i ∧ (dir config).Admits name := by
  constructor
  · intro h
    cases h with
    | head => cases index?_headName.symm.trans hi
    | tail hle hadm =>
      cases (index?_tailName hle).symm.trans hi
      exact ⟨rfl, hadm⟩
  · rintro ⟨rfl, hadm⟩
    exact .tail (index?_le hi) hadm

/-- What a log does with its segments makes no name regular, and none irregular. -/
theorem Confined.regular_iff (h : Confined config p d d') :
    Regular config p d' ↔ Regular config p d := by
  have hsame : ∀ name i, index? name = some i → ¬(name = tailName i ∧ (dir config).Admits name) →
      d'.find? (p ++ [name]) = d.find? (p ++ [name]) := by
    intro name i hi hnot
    refine h.others _ fun name' hown heq => hnot ((own_iff hi).1 ?_)
    rw [List.append_cancel_left_eq, List.singleton_inj] at heq
    exact heq ▸ hown
  constructor <;> intro hreg name i hfind hi <;> by_contra hnot
  · exact hnot (hreg name i (by rwa [hsame name i hi hnot]) hi)
  · exact hnot (hreg name i (by rwa [← hsame name i hi hnot]) hi)

/-! ## Deleting the segments -/

/-- If all tails that are listed are deleted, each was there, and was listed once. -/
theorem removeTails_eq_ok {l : List Nat} (h : d.Folder (dir config) p)
    (hremove : removeTails config l d = (.ok (), d')) :
    l.Nodup ∧ ∀ i ∈ l, (dir config).Admits (tailName i) ∧ d.find? (p ++ [tailName i]) ≠ none := by
  induction l generalizing d with
  | nil => exact ⟨.nil, fun i hi => absurd hi List.not_mem_nil⟩
  | cons i l ih =>
    simp only [removeTails] at hremove
    split at hremove
    next d₁ hfirst =>
      rw [Disk.remove] at hfirst
      split at hfirst
      next q f hresolve =>
        cases hfirst
        obtain ⟨hlocate, hfind⟩ := Disk.resolve_eq_ok_iff.1 hresolve
        obtain ⟨hadm, rfl⟩ := (h.locate_entry (isEntry_tailName i)).1 hlocate
        obtain ⟨hnodup, hrest⟩ := ih (h.erase _) hremove
        -- what has been deleted is not there to be deleted again
        have hnot : i ∉ l := by
          intro hi
          refine (hrest i hi).2 ?_
          rw [Disk.find?_erase (by simp), if_pos rfl]
        refine ⟨List.nodup_cons.2 ⟨hnot, hnodup⟩, fun j hj => ?_⟩
        rcases List.mem_cons.1 hj with rfl | hj
        · exact ⟨hadm, by simp [hfind]⟩
        · obtain ⟨hadm', hthere⟩ := hrest j hj
          refine ⟨hadm', ?_⟩
          rwa [Disk.find?_erase_of_ne] at hthere
          rw [ne_eq, List.append_cancel_left_eq, List.singleton_inj]
          intro heq
          exact hnot (tailName_injective heq ▸ hj)
      next => cases hfirst
      next => cases hfirst
    next => cases hremove

/-- Tails that have the names that the log gives to them can be deleted. -/
theorem removeTails_of_regular (h : d.Folder (dir config) p) (hreg : Regular config p d) : ∃ d',
    removeTails config ((d.names p).filterMap index?) d = (.ok (), d') ∧
      d'.Folder (dir config) p ∧ d'.contents = d.contents ∧
      (∀ name i, index? name = some i → d'.find? (p ++ [name]) = none) ∧
      ∀ q, (∀ name, q = p ++ [name] → index? name = none) → d'.find? q = d.find? q := by
  have hread : ∀ name ∈ d.names p, ∀ i, index? name = some i →
      name = tailName i ∧ (dir config).Admits name := by
    intro name hname i hi
    obtain ⟨n, hn⟩ := Disk.mem_names.1 hname
    exact hreg name i (by simp [hn]) hi
  have hfiles : ∀ i ∈ (d.names p).filterMap index?, index? (tailName i) = some i ∧ ∃ f,
      d.resolve (tailRoute config i) = .ok (p ++ [tailName i], .file f) := by
    intro i hmem
    obtain ⟨name, hname, hi⟩ := List.mem_filterMap.1 hmem
    obtain ⟨rfl, hadm⟩ := hread name hname i hi
    obtain ⟨n, hn⟩ := Disk.mem_names.1 hname
    obtain ⟨f, -, rfl⟩ := h.file _ n hn
    exact ⟨hi, f,
      Disk.resolve_eq_ok_iff.2 ⟨(h.locate_entry (isEntry_tailName i)).2 ⟨hadm, rfl⟩, hn⟩⟩
  obtain ⟨d', hremove, hsteady, hcontents, hgone, hothers⟩ := removeTails_of_nodup
    (nodup_indices h.tidy fun name hname i hi => (hread name hname i hi).1)
    fun i hi => (hfiles i hi).2
  have hkept : ∀ q, (∀ name, q = p ++ [name] → index? name = none) → d'.find? q = d.find? q := by
    intro q hq
    refine hothers q fun i hi heq => ?_
    cases (hfiles i hi).1.symm.trans (hq _ heq)
  have htails : ∀ name i, index? name = some i → d'.find? (p ++ [name]) = none := by
    intro name i hi
    by_cases hname : name ∈ d.names p
    · obtain rfl := (hread name hname i hi).1
      exact hgone i (List.mem_filterMap.2 ⟨_, hname, hi⟩)
    · have hnone : d.find? (p ++ [name]) = none := by
        by_contra hfind
        exact hname (Disk.mem_names.2 (Option.ne_none_iff_exists'.1 hfind))
      rw [hothers, hnone]
      intro j hj heq
      rw [List.append_cancel_left_eq, List.singleton_inj] at heq
      obtain ⟨-, f, hresolve⟩ := hfiles j hj
      cases hnone.symm.trans (heq ▸ (Disk.resolve_eq_ok_iff.1 hresolve).2)
  refine ⟨d', hremove, h.steady hsteady fun name n hn => ?_, hcontents, htails, hkept⟩
  rw [hcontents]
  cases hi : index? name with
  | some i => cases hn.symm.trans (htails name i hi)
  | none =>
    rw [hkept _ fun name' heq => ?_] at hn
    · exact h.file name n hn
    · rw [List.append_cancel_left_eq, List.singleton_inj] at heq
      exact heq ▸ hi

/-- No others can all be deleted. -/
theorem regular_of_removeTails (h : d.Folder (dir config) p)
    (hremove : removeTails config ((d.names p).filterMap index?) d = (.ok (), d')) :
    Regular config p d := by
  obtain ⟨hnodup, hthere⟩ := removeTails_eq_ok h hremove
  rw [List.Nodup, List.pairwise_filterMap] at hnodup
  intro name i hfind hi
  have hname : name ∈ d.names p := Disk.mem_names.2 (Option.ne_none_iff_exists'.1 hfind)
  obtain ⟨hadm, htail⟩ := hthere i (List.mem_filterMap.2 ⟨name, hname, hi⟩)
  -- the tail is listed under its own name, and its number is not listed twice
  have hsame : name = tailName i := by
    by_contra hne
    have : Std.Symm fun a b : String =>
        ∀ j, index? a = some j → ∀ k, index? b = some k → j ≠ k :=
      ⟨fun a b hab j hj k hk heq => hab k hk j hj heq.symm⟩
    exact hnodup.forall hname (Disk.mem_names.2 (Option.ne_none_iff_exists'.1 htail)) hne i hi i
      (index?_tailName (index?_le hi)) rfl
  exact ⟨hsame, hsame ▸ hadm⟩

/-- The head is deleted first. -/
theorem remove_head_of_folder (h : d.Folder (dir config) p) (hadm : (dir config).Admits headName) :
    ∃ d', (if d.exists? (headRoute config) then d.remove (headRoute config) else .ok d) = .ok d' ∧
      d'.Folder (dir config) p ∧ d'.contents = d.contents ∧ d'.find? (p ++ [headName]) = none ∧
      ∀ q, q ≠ p ++ [headName] → d'.find? q = d.find? q := by
  have hlocate := (h.locate_entry isEntry_headName).2 ⟨hadm, rfl⟩
  cases hfind : d.find? (p ++ [headName]) with
  | none =>
    have hexists : d.exists? (headRoute config) = false := by
      rw [Disk.exists?, Disk.resolve, headRoute, hlocate]
      simp only [bind, Except.bind, hfind]
    exact ⟨d, by rw [hexists]; rfl, h, rfl, hfind, fun _ _ => rfl⟩
  | some n =>
    obtain ⟨f, -, rfl⟩ := h.file headName n hfind
    have hresolve := Disk.resolve_eq_ok_iff.2 ⟨hlocate, hfind⟩
    have hexists : d.exists? (headRoute config) = true := by rw [Disk.exists?, headRoute, hresolve]
    refine ⟨d.erase (p ++ [headName]), ?_, h.erase _, rfl, ?_,
      fun q hq => Disk.find?_erase_of_ne hq⟩
    · rw [hexists, if_pos rfl]
      exact Disk.remove_file hresolve
    · rw [Disk.find?_erase (by simp), if_pos rfl]

/-- Then the tails that are listed are deleted. -/
theorem removeFiles_of_headless {indices : List Nat}
    (hhead : (if d.exists? (headRoute g.config) then d.remove (headRoute g.config) else .ok d) =
      .ok d')
    (hlist : tailIndices g.config d' = .ok indices) : g.removeFiles d =
      match removeTails g.config indices d' with
      | (.error e, d) => (.error e, g, d)
      | (.ok (), d) => (.ok (), { g with headSize := 0, minIndex := 0, maxIndex := 0 }, d) := by
  rcases hrest : removeTails g.config indices d' with ⟨e | ⟨⟩, d₂⟩ <;>
    simp only [removeFiles, hhead, hlist, hrest]

/-- All segments can be deleted exactly if every name that is read as that of a tail is the one that
    the log gives to it. Then they are gone, and nothing else is. -/
theorem removeFiles_iff (h : d.Folder (dir g.config) p)
    (hadm : (dir g.config).Admits headName) :
    ((g.removeFiles d).1 = .ok () ↔ Regular g.config p d) ∧
      ∀ g' d', g.removeFiles d = (.ok (), g', d') →
        g' = { g with headSize := 0, minIndex := 0, maxIndex := 0 } ∧
          d'.Folder (dir g.config) p ∧ Emptied p d d' := by
  obtain ⟨d₁, hhead, h₁, hcontents₁, hnone₁, hothers₁⟩ := remove_head_of_folder h hadm
  have hlist : tailIndices g.config d₁ = .ok ((d₁.names p).filterMap index?) := by
    rw [tailIndices, Disk.list_of_directory h₁.resolve]
    rfl
  -- the name of the head is not read as that of a tail
  have hregular : Regular g.config p d₁ ↔ Regular g.config p d := by
    have hne : ∀ name i, index? name = some i → p ++ [name] ≠ p ++ [headName] := by
      intro name i hi heq
      rw [List.append_cancel_left_eq, List.singleton_inj] at heq
      cases index?_headName.symm.trans (heq ▸ hi)
    constructor <;> intro hreg name i hfind hi
    · exact hreg name i (by rwa [hothers₁ _ (hne name i hi)]) hi
    · exact hreg name i (by rwa [← hothers₁ _ (hne name i hi)]) hi
  rw [← hregular, removeFiles_of_headless hhead hlist]
  refine ⟨⟨fun hok => ?_, fun hreg => ?_⟩, fun g' d' heq => ?_⟩
  · rcases hrest : removeTails g.config ((d₁.names p).filterMap index?) d₁ with ⟨e | ⟨⟩, d₂⟩
    · simp only [hrest, reduceCtorEq] at hok
    · exact regular_of_removeTails h₁ hrest
  · obtain ⟨d₂, hrest, -⟩ := removeTails_of_regular h₁ hreg
    rw [hrest]
  · rcases hrest : removeTails g.config ((d₁.names p).filterMap index?) d₁ with ⟨e | ⟨⟩, d₂⟩ <;>
      rw [hrest] at heq <;> cases heq
    obtain ⟨d₂', hrest', h₂, hcontents₂, htails, hothers₂⟩ :=
      removeTails_of_regular h₁ (regular_of_removeTails h₁ hrest)
    obtain rfl : d₂' = d' := congrArg Prod.snd (hrest'.symm.trans hrest)
    refine ⟨rfl, h₂, ⟨?_, htails, fun q hq => ?_, hcontents₂.trans hcontents₁⟩⟩
    · rw [hothers₂ _ fun name heq => ?_, hnone₁]
      rw [List.append_cancel_left_eq, List.singleton_inj] at heq
      exact heq ▸ index?_headName
    · rw [hothers₂ q fun name heq => (hq name heq).2, hothers₁]
      rintro rfl
      exact (hq headName rfl).1 rfl

/-! ## Where no segments are -/

/-- Where there are no segments, none is deleted. -/
theorem removeFiles_of_bare (h : d.Folder (dir g.config) p)
    (hhead : d.find? (p ++ [headName]) = none)
    (htails : ∀ name i, index? name = some i → d.find? (p ++ [name]) = none) :
    g.removeFiles d = (.ok (), { g with headSize := 0, minIndex := 0, maxIndex := 0 }, d) := by
  have hexists : d.exists? (headRoute g.config) = false := by
    rw [Disk.exists?]
    split
    next qn hresolve =>
      obtain ⟨hlocate, hfind⟩ := Disk.resolve_eq_ok_iff.1 hresolve
      rw [((h.locate_entry isEntry_headName).1 hlocate).2, hhead] at hfind
      cases hfind
    next => rfl
  simp only [removeFiles, hexists, Bool.false_eq_true, if_false, tailIndices,
    Disk.list_of_directory h.resolve, Except.map, filterMap_index?_eq_nil htails, removeTails]

/-- Where there are no segments, opening a log begins with an empty head. -/
theorem openIn_of_bare (h : d.Folder (dir config) p) (hadm : (dir config).Admits headName)
    (hhead : d.find? (p ++ [headName]) = none)
    (htails : ∀ name i, index? name = some i → d.find? (p ++ [name]) = none) :
    openIn config d =
      (.ok ⟨config, some d.contents.length, 0, 0, 0⟩, d.create (p ++ [headName])) := by
  rw [openIn_of_headless h ((h.locate_entry isEntry_headName).2 ⟨hadm, rfl⟩) hhead,
    filterMap_index?_eq_nil htails]
  rfl

end Group

/-! ## Workbenches -/

namespace Workbench

variable {w : Workbench} {config : LogConfig} {p : Path} {d : Disk} {g : Group}

theorem run_clear (hg : w.group = some g) : w.run .clear =
    match g.close.removeFiles w.disk with
    | (.ok (), g', d') => (.done, { w with disk := d', group := some g' })
    | (.error e, g', d') => (.failed e, { w with disk := d', group := some g' }) := by
  simp only [run, withLog, hg, Log.clear, Log.close, Log.withGroup]
  rcases g.close.removeFiles w.disk with ⟨e | ⟨⟩, g', d'⟩ <;> rfl

/-- When a log that is in charge of its directory can be cleared, and what that leaves. -/
theorem Tended.clear (h : w.Tended config p d) :
    ((w.run .clear).1.isDone = true ↔ Group.Regular config p d) ∧
      ((w.run .clear).1.isDone = true →
        (w.run .clear).2.group = some ⟨config, none, 0, 0, 0⟩ ∧
        (w.run .clear).2.disk.Folder (Group.dir config) p ∧
        Group.Emptied p w.disk (w.run .clear).2.disk) := by
  obtain ⟨g, hg, htends⟩ := h
  have hrun := run_clear hg
  obtain rfl : g.close.config = config := htends.settings
  obtain ⟨hiff, hleft⟩ := Group.removeFiles_iff htends.confined.folder htends.admits
  rw [htends.confined.regular_iff] at hiff
  rcases hremove : g.close.removeFiles w.disk with ⟨e | ⟨⟩, g', d'⟩ <;>
    rw [hremove] at hrun hiff <;> rw [hrun]
  · rw [← hiff]
    exact ⟨iff_of_false (by simp [WorkbenchAnswer.isDone]) (by simp),
      fun hdone => by simp [WorkbenchAnswer.isDone] at hdone⟩
  · rw [← hiff]
    obtain ⟨rfl, hfolder, hemptied⟩ := hleft _ _ hremove
    exact ⟨iff_of_true rfl rfl, fun _ => ⟨rfl, hfolder, hemptied⟩⟩

/-- After a log has been opened among any files, and used, it can be cleared if and only if every
    name that is read as the name of a tail is the one that the log gives to that tail, and can be
    asked for in its directory. Then there is no head any more, nor any name that would be read as
    that of a tail, and all other names and files are as they were when the log was opened.
    Clearing the log again succeeds and changes nothing, and a log that is opened next has one
    segment, which has number 0 and is empty. -/
theorem clears_iff {watched : Bool} {actions : List WorkbenchAction}
    (hfolder : w.disk.Folder (Group.dir config) p)
    (hopen : (w.run (.openLog config watched)).1.isDone = true)
    (hactions : ∀ a ∈ actions, a.isUse = true) :
    let used := (w.run (.openLog config watched)).2.runAll actions
    let cleared := (used.run .clear).2
    ((used.run .clear).1.isDone = true ↔
      ∀ name i, w.disk.find? (p ++ [name]) ≠ none → index? name = some i →
        name = tailName i ∧ (Group.dir config).Admits name) ∧
    ((used.run .clear).1.isDone = true →
      cleared.disk.find? (p ++ [headName]) = none ∧
      (∀ name i, index? name = some i → cleared.disk.find? (p ++ [name]) = none) ∧
      (∀ q, (∀ name, q = p ++ [name] → name ≠ headName ∧ index? name = none) →
        cleared.disk.find? q = w.disk.find? q) ∧
      (∀ f < w.disk.contents.length, w.disk.find? (p ++ [headName]) ≠ some (.file f) →
        cleared.disk.content f = w.disk.content f) ∧
      cleared.run .clear = (.done, cleared) ∧
      ∀ config' : LogConfig, config'.dir = config.dir → config'.validate = .ok () →
        ∀ watched', ∃ id reopened,
          cleared.run (.openLog config' watched') = (.done, reopened) ∧
          reopened.group = some ⟨config', some id, 0, 0, 0⟩ ∧ reopened.disk.content id = []) := by
  intro used cleared
  have htended : used.Tended config p w.disk := (tended_openLog hfolder hopen).runAll hactions
  obtain ⟨hiff, hcleared⟩ := htended.clear
  refine ⟨hiff, fun hdone => ?_⟩
  obtain ⟨hg, hfolder', hempty⟩ := hcleared hdone
  obtain ⟨g, -, htends⟩ := htended
  refine ⟨hempty.head, hempty.tails, fun q hq => ?_, fun f hf hne => ?_, ?_,
    fun config' hdir hvalid watched' => ?_⟩
  · refine (hempty.others q hq).trans (htends.confined.others q fun name hown heq => ?_)
    obtain ⟨hne, hnone⟩ := hq name heq
    rcases hown.cases with hhead | ⟨i, hi⟩
    · exact hne hhead
    · cases hnone.symm.trans hi
  · rw [← htends.confined.contents f hf hne, Disk.content, hempty.contents]
    rfl
  · rw [run_clear hg, Group.close, Group.removeFiles_of_bare hfolder' hempty.head hempty.tails]
    change (_, { cleared with group := some ⟨config, none, 0, 0, 0⟩ }) = _
    rw [← hg]
  · have hroute : Group.dir config = Group.dir config' := by rw [Group.dir, Group.dir, hdir]
    have hagain := Group.openIn_of_bare (hroute ▸ hfolder') (hroute ▸ htends.admits) hempty.head
      hempty.tails
    have hopens : Group.openIn config' cleared.disk = _ := hagain
    obtain ⟨hdisk, hgroup⟩ := cleared.run_openLog hvalid watched'
    rw [hopens] at hdisk hgroup
    refine ⟨_, (cleared.run (.openLog config' watched')).2, ?_, hgroup, ?_⟩
    · simp only [run, Log.openIn, hvalid, disk_dropLog, hopens]
    · rw [hdisk, Disk.content_create, Disk.content_length_contents]

/-- A directory with a tail, and with two files that are not a log's. -/
def amongOthers : Workbench where
  root := "root"
  disk := ⟨[(["root"], .directory), (["root", "WAL.003"], .file 0), (["root", "notes"], .file 1),
    (["root", "WAL.old"], .file 2)], [[], [1, 2], [3]]⟩
  group := none
  watched := false
  readers := []

theorem folder_amongOthers : amongOthers.disk.Folder (Group.dir (.dev "root")) ["root"] := by
  refine Disk.folder_of_entries rfl ?_
    (by decide : (amongOthers.disk.names ["root"]).Nodup)
  simp only [amongOthers, List.forall_mem_cons, List.not_mem_nil, false_implies, implies_true]
  refine ⟨fun name hname => ?_, fun _ _ => ⟨0, by decide, rfl⟩, fun _ _ => ⟨1, by decide, rfl⟩,
    fun _ _ => ⟨2, by decide, rfl⟩, trivial⟩
  cases Disk.nameIn_eq_some.1 hname

theorem regular_amongOthers : Group.Regular (.dev "root") ["root"] amongOthers.disk := by
  intro name i hfind hi
  have hmem : name ∈ ["WAL.003", "notes", "WAL.old"] := by
    obtain ⟨n, hn⟩ := Option.ne_none_iff_exists'.1 hfind
    exact Disk.mem_names.2 ⟨n, hn⟩
  simp only [List.mem_cons, List.not_mem_nil, or_false] at hmem
  rcases hmem with rfl | rfl | rfl
  · cases (by decide : index? "WAL.003" = some 3).symm.trans hi
    exact ⟨by decide, by decide +kernel⟩
  · cases (by decide : index? "notes" = none).symm.trans hi
  · cases (by decide : index? "WAL.old" = none).symm.trans hi

/-- What is written and sealed is cleared with the tail that was there. The other files stay. -/
theorem clears_amongOthers :
    let used := (amongOthers.run (.openLog (.dev "root") false)).2.runAll
      [.write (.endHeight ⟨5⟩), .rotate, .checkLimits, .close]
    let cleared := (used.run .clear).2
    used.disk.find? ["root", "WAL.004"] = some (.file 3) ∧ (used.run .clear).1.isDone = true ∧
      cleared.disk.find? ["root", "WAL.004"] = none ∧
      cleared.disk.find? ["root", "WAL.old"] = some (.file 2) ∧
      cleared.disk.content 2 = [3] ∧ cleared.run .clear = (.done, cleared) := by
  refine ⟨by decide +kernel, ?_⟩
  obtain ⟨hiff, hcleared⟩ := clears_iff folder_amongOthers
    (by decide +kernel : (amongOthers.run (.openLog (.dev "root") false)).1.isDone = true)
    (by decide : ∀ a ∈ [WorkbenchAction.write (.endHeight ⟨5⟩), .rotate, .checkLimits, .close],
      a.isUse = true)
  have hdone := hiff.2 regular_amongOthers
  obtain ⟨-, htails, hothers, hcontents, hagain, -⟩ := hcleared hdone
  refine ⟨hdone, htails "WAL.004" 4 (by decide), ?_, hcontents 2 (by decide) (by decide), hagain⟩
  refine (hothers ["root", "WAL.old"] fun name hname => ?_).trans (by decide)
  cases hname
  decide

/-- A directory with a tail that has a short name. -/
def shortTail : Workbench where
  root := "root"
  disk := ⟨[(["root"], .directory), (["root", "WAL.7"], .file 0)], [[]]⟩
  group := none
  watched := false
  readers := []

theorem folder_shortTail : shortTail.disk.Folder (Group.dir (.dev "root")) ["root"] := by
  refine Disk.folder_of_entries rfl ?_ (by decide : (shortTail.disk.names ["root"]).Nodup)
  simp only [shortTail, List.forall_mem_cons, List.not_mem_nil, false_implies, implies_true]
  refine ⟨fun name hname => ?_, fun _ _ => ⟨0, by decide, rfl⟩, trivial⟩
  cases Disk.nameIn_eq_some.1 hname

/-- The tail is taken for number 7, and is not found under the name that the log would give to it.
    So clearing fails, and leaves it where it is. -/
theorem clear_misses_shortTail :
    let opened := shortTail.run (.openLog (.dev "root") false)
    let cleared := opened.2.run .clear
    shortTail.disk.Folder (Group.dir (.dev "root")) ["root"] ∧ opened.1.isDone = true ∧
      opened.2.group = some ⟨.dev "root", some 1, 0, 7, 8⟩ ∧
      cleared.1 = .failed (.disk .notFound) ∧
      cleared.2.disk.find? ["root", "WAL.7"] = some (.file 0) :=
  ⟨folder_shortTail, by decide +kernel, by decide +kernel, by decide +kernel, by decide +kernel⟩

end Workbench

end ConsensusCore
