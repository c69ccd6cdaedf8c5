import ConsensusCore.Proofs.Log.Emptying
import Mathlib.Tactic.SplitIfs

/-!
# Sealing among other files

A head that is sealed gets the name of a tail, and a file that has had this name before is gone. As
long as numbers go on, there is none: the number of the head is above those of all tails that were
there when the log was opened, and above those of all heads that have been sealed since. So none
of the names from this number on is in use (`Group.Seals`).

The numbers end, however (`Saturating.ceiling`). The head that has the last of them keeps it when
it is sealed, and so the next one is sealed under the same name. It is the only name that is given
twice.

* `Group.Seals.use`: what a use of the log keeps that trims nothing;
* `Workbench.seals_apart`: sealing among any files.
-/

namespace ConsensusCore

open LogConfig Segment

/-- The file has two names in the directory. -/
def Disk.Twice (d : Disk) (p : Path) (f : FileId) : Prop :=
  ∃ a b, a ≠ b ∧ d.find? (p ++ [a]) = some (.file f) ∧ d.find? (p ++ [b]) = some (.file f)

namespace Group

/-- The name of the segment with a number. -/
def segmentName (g : Group) (i : Nat) : String := if g.maxIndex ≤ i then headName else tailName i

/-- The head is the one that was there, or the first that has been created since. -/
def Unsealed (p : Path) (d d' : Disk) : Prop :=
  d'.find? (p ++ [headName]) = d.find? (p ++ [headName]) ∨
    d.find? (p ++ [headName]) = none ∧ d'.find? (p ++ [headName]) = some (.file d.contents.length)

/-- Each file but the head keeps its name, that with the last name for a tail as long as the head
    is not sealed. It also keeps what is in it, if it is not under the name of the head as well. -/
def Spares (p : Path) (d d' : Disk) : Prop :=
  ∀ name f, name ≠ headName → (name = tailName Saturating.ceiling → Unsealed p d d') →
    d.find? (p ++ [name]) = some (.file f) →
    d'.find? (p ++ [name]) = some (.file f) ∧
      (d.find? (p ++ [headName]) ≠ some (.file f) → d'.content f = d.content f)

/-- A group that is in charge of the directory, and has sealed heads and not trimmed tails. -/
structure Seals (g : Group) (config : LogConfig) (p : Path) (d d' : Disk) : Prop
    extends g.Tends config p d d' where
  base : d.Folder (dir config) p
  free : g.maxIndex < Saturating.ceiling → ∀ i, g.maxIndex ≤ i → i ≤ Saturating.ceiling →
    d'.find? (p ++ [tailName i]) = none
  names : ∀ name n, name ≠ headName → (name = tailName Saturating.ceiling → Unsealed p d d') →
    d.find? (p ++ [name]) = some n → d'.find? (p ++ [name]) = some n
  twice : ∀ f, d'.Twice p f → d.Twice p f

variable {config : LogConfig} {p q : Path} {d d' d'' : Disk} {g g' : Group} {name : String}
  {id f : FileId} {i j : Nat}

/-! ## The names of segments -/

theorem segmentRoute_eq (g : Group) (i : Nat) :
    g.segmentRoute i = dir g.config ++ [g.segmentName i] := by
  rw [segmentRoute, segmentName]
  split <;> rfl

theorem segmentName_ne (hij : i < j) (hj : j ≤ g.maxIndex) : g.segmentName i ≠ g.segmentName j := by
  rw [segmentName, segmentName, if_neg (by omega)]
  split
  next => exact tailName_ne_headName i
  next =>
    intro heq
    exact Nat.ne_of_lt hij (tailName_injective heq)

theorem isEntry_segmentName (g : Group) (i : Nat) : Route.IsEntry (g.segmentName i) := by
  rw [segmentName]
  split
  next => exact isEntry_headName
  next => exact isEntry_tailName i

/-- Where the route to a segment leads. -/
theorem Tends.locate_segmentRoute (h : g.Tends config p d d')
    (hlocate : d'.locate (g.segmentRoute i) = .ok q) : q = p ++ [g.segmentName i] := by
  rw [segmentRoute_eq, h.settings] at hlocate
  exact ((h.confined.folder.locate_entry (g.isEntry_segmentName i)).1 hlocate).2

theorem Tends.find?_segment (h : g.Tends config p d d')
    (hfile : d'.fileAt (g.segmentRoute i) = .ok f) :
    d'.find? (p ++ [g.segmentName i]) = some (.file f) := by
  obtain ⟨q, hresolve⟩ := Disk.exists_of_fileAt hfile
  obtain ⟨hlocate, hfind⟩ := Disk.resolve_eq_ok_iff.1 hresolve
  exact h.locate_segmentRoute hlocate ▸ hfind

/-! ## Trimming -/

/-- Trimming stops, or takes one number and goes on. -/
theorem trim_succ_cases (count total : Nat) (g : Group) (d : Disk) :
    (trim (count + 1) total g d).2 = (g, d) ∨ ∃ total' d', (trim (count + 1) total g d).2 =
      (trim count total' { g with minIndex := g.minIndex + 1 } d').2 := by
  rw [trim]
  split
  next => exact .inl rfl
  next =>
    dsimp only
    split
    next => exact .inr ⟨_, _, rfl⟩
    next => exact .inr ⟨_, _, rfl⟩
    next => exact .inl rfl

theorem minIndex_le_trim (count total : Nat) (g : Group) (d : Disk) :
    g.minIndex ≤ (trim count total g d).2.1.minIndex := by
  induction count generalizing total g d with
  | zero => exact Nat.le_refl _
  | succ count ih =>
    obtain heq | ⟨total', d', heq⟩ := trim_succ_cases count total g d
    · exact Nat.le_of_eq (by rw [heq])
    · rw [heq]
      exact Nat.le_of_succ_le (ih total' { g with minIndex := g.minIndex + 1 } d')

/-- Where the lowest number stays, nothing is trimmed. -/
theorem trim_of_minIndex_eq {count total : Nat}
    (hmin : (trim count total g d).2.1.minIndex = g.minIndex) :
    (trim count total g d).2 = (g, d) := by
  cases count with
  | zero => rfl
  | succ count =>
    obtain heq | ⟨total', d', heq⟩ := trim_succ_cases count total g d
    · exact heq
    · have hgrows := minIndex_le_trim count total' { g with minIndex := g.minIndex + 1 } d'
      rw [← heq, hmin] at hgrows
      exact absurd hgrows (Nat.not_succ_le_self _)

theorem Use.minIndex_le (h : g.Use d g' d') : g.minIndex ≤ g'.minIndex := by
  cases h with
  | keep | write | close => exact Nat.le_refl _
  | rotate hrotate => exact Nat.le_of_eq (rotate_keeps hrotate).2.symm
  | checkLimits =>
    obtain ⟨g₁, d₁, hsealed, hrest⟩ := g.checkLimits_cases d
    have h₁ : g.minIndex = g₁.minIndex := by
      obtain ⟨rfl, -⟩ | hrotate := hsealed
      · rfl
      · exact (rotate_keeps hrotate).2.symm
    rw [h₁]
    obtain heq | ⟨total, heq⟩ := hrest
    · exact Nat.le_of_eq (by rw [heq])
    · rw [heq]
      exact minIndex_le_trim _ _ _ _

theorem Use.minIndex_eq_of_unlimited (h : g.Use d g' d') (hlimit : g.config.totalSizeLimit = 0) :
    g'.minIndex = g.minIndex := by
  cases h with
  | keep | write | close => rfl
  | rotate hrotate => exact (rotate_keeps hrotate).2
  | checkLimits => exact minIndex_checkLimits hlimit

/-! ## Sealing -/

/-- What sealing the head does to the names in the directory. -/
theorem Tends.find?_rotate (h : g.Tends config p d d') (hrotate : g.rotate d' = .ok (g', d'')) :
    d''.find? (p ++ [headName]) = some (.file d'.contents.length) ∧
      d''.find? (p ++ [tailName g.maxIndex]) = d'.find? (p ++ [headName]) ∧
      ∀ name, name ≠ headName → name ≠ tailName g.maxIndex →
        d''.find? (p ++ [name]) = d'.find? (p ++ [name]) := by
  obtain ⟨id, hhead, -, -, rfl⟩ := h.rotate_eq_ok hrotate
  have hne := tailName_ne_headName g.maxIndex
  refine ⟨?_, ?_, fun name hname hnext => ?_⟩
  · rw [Disk.find?_create (by simp), if_pos rfl]
    rfl
  · simp [Disk.find?_create, Disk.find?_set, hne, (h.head id hhead).1]
  · simp [Disk.find?_create, Disk.find?_set, Disk.find?_erase, hname, hnext]

/-- No file gets a second name where the head is a new file, and the others had other names. -/
theorem twice_of_new {r : Route} (h : d.Folder r p) (old : String → String)
    (hhead : d'.find? (p ++ [headName]) = some (.file d.contents.length))
    (hothers : ∀ a, a ≠ headName → d'.find? (p ++ [a]) = d.find? (p ++ [old a]))
    (hold : ∀ a b, a ≠ headName → b ≠ headName → old a = old b → a = b)
    (hf : d'.Twice p f) : d.Twice p f := by
  have hnew : ∀ a, d'.find? (p ++ [a]) = some (.file d.contents.length) → a = headName := by
    intro a ha
    by_contra hne
    rw [hothers a hne] at ha
    obtain ⟨_, hlt, ⟨⟩⟩ := h.file _ _ ha
    exact Nat.lt_irrefl _ hlt
  obtain ⟨a, b, hab, ha, hb⟩ := hf
  by_cases hsame : f = d.contents.length
  · subst hsame
    exact absurd ((hnew a ha).trans (hnew b hb).symm) hab
  · have hnot : ∀ c, d'.find? (p ++ [c]) = some (.file f) → c ≠ headName := by
      rintro _ hc rfl
      rw [hhead] at hc
      cases hc
      exact hsame rfl
    refine ⟨old a, old b, fun heq => hab (hold a b (hnot a ha) (hnot b hb) heq), ?_, ?_⟩
    · rw [← hothers a (hnot a ha), ha]
    · rw [← hothers b (hnot b hb), hb]

theorem Tends.twice_rotate (h : g.Tends config p d d') (hrotate : g.rotate d' = .ok (g', d''))
    (hf : d''.Twice p f) : d'.Twice p f := by
  obtain ⟨hhead, hnext, hothers⟩ := h.find?_rotate hrotate
  -- the tail that has been sealed is the only one that has had another name
  refine twice_of_new h.confined.folder
    (fun a => if a = tailName g.maxIndex then headName else a) hhead (fun a ha => ?_)
    (fun a b ha hb heq => ?_) hf
  · split
    next heq => rw [heq, hnext]
    next hne => exact hothers a ha hne
  · split_ifs at heq with hanext hbnext hbnext
    · exact hanext.trans hbnext.symm
    · exact absurd heq.symm hb
    · exact absurd heq ha
    · exact heq

/-- When the head is sealed, the next one is none that was there, and not the first one. -/
theorem Tends.not_unsealed (h : g.Tends config p d d') (hd : d.Folder (dir config) p)
    (hrotate : g.rotate d' = .ok (g', d'')) : ¬Unsealed p d d'' := by
  obtain ⟨id, hid, -⟩ := h.rotate_eq_ok hrotate
  obtain ⟨hthere, hbefore⟩ := h.head id hid
  obtain ⟨_, hlt, ⟨⟩⟩ := h.confined.folder.file _ _ hthere
  rw [Unsealed, (h.find?_rotate hrotate).1]
  rintro (heq | ⟨hnone, heq⟩)
  · obtain ⟨_, hold, ⟨⟩⟩ := hd.file _ _ heq.symm
    exact Nat.not_lt.2 h.confined.grows hold
  · rw [Option.some.injEq, Node.file.injEq] at heq
    obtain hsome | hle := hbefore
    · cases hnone.symm.trans hsome
    · rw [heq] at hlt
      exact Nat.not_lt.2 hle hlt

namespace Seals

variable (h : g.Seals config p d d')
include h

/-- The name that the head gets is not in use, if it is not the last one. -/
theorem next_free : d'.find? (p ++ [tailName g.maxIndex]) = none ∨
    g.maxIndex = Saturating.ceiling := by
  rcases Nat.lt_or_eq_of_le h.max with hlt | heq
  · exact .inl (h.free hlt _ (Nat.le_refl _) h.max)
  · exact .inr heq

theorem rotate (hrotate : g.rotate d' = .ok (g', d'')) : g'.Seals config p d d'' := by
  have hsealed := h.toTends.not_unsealed h.base hrotate
  obtain ⟨-, -, hothers⟩ := h.find?_rotate hrotate
  obtain ⟨-, -, -, rfl, -⟩ := h.rotate_eq_ok hrotate
  refine ⟨h.toTends.rotate hrotate, h.base, fun hlt i hi hle => ?_, fun name n hname hlast hn => ?_,
    fun f hf => h.twice f (h.toTends.twice_rotate hrotate hf)⟩
  · -- the names after the one that the head has got
    have hnext : Saturating.add g.maxIndex 1 = g.maxIndex + 1 := by
      dsimp only at hlt
      rw [Saturating.add] at hlt ⊢
      omega
    dsimp only at hlt hi
    rw [hnext] at hlt hi
    rw [hothers _ (tailName_ne_headName i) fun heq => ?_]
    · exact h.free (by omega) i (by omega) hle
    · have := tailName_injective heq
      omega
  · have hbefore := h.names name n hname (fun heq => absurd (hlast heq) hsealed) hn
    rw [hothers name hname fun heq => ?_]
    · exact hbefore
    · rcases h.next_free with hnone | hceiling
      · cases hbefore.symm.trans (heq ▸ hnone)
      · exact hsealed (hlast (hceiling ▸ heq))

theorem checkLimits (hmin : (g.checkLimits d').2.1.minIndex = g.minIndex) :
    (g.checkLimits d').2.1.Seals config p d (g.checkLimits d').2.2 := by
  obtain ⟨g₁, d₁, hsealed, hrest⟩ := g.checkLimits_cases d'
  have h₁ : g₁.Seals config p d d₁ ∧ g₁.minIndex = g.minIndex := by
    obtain ⟨rfl, rfl⟩ | hrotate := hsealed
    · exact ⟨h, rfl⟩
    · exact ⟨h.rotate hrotate, (rotate_keeps hrotate).2⟩
  obtain heq | ⟨total, heq⟩ := hrest <;> rw [heq] at hmin ⊢
  · exact h₁.1
  · rw [trim_of_minIndex_eq (hmin.trans h₁.2.symm)]
    exact h₁.1

theorem write (hhead : g.head = some id) (n : Nat) (bs : Bytes) :
    { g with headSize := n }.Seals config p d (d'.append id bs) :=
  ⟨h.toTends.write hhead n bs, h.base, h.free, h.names, h.twice⟩

theorem close : g.close.Seals config p d d' :=
  ⟨h.toTends.close, h.base, h.free, h.names, h.twice⟩

theorem use (huse : g.Use d' g' d'') (hmin : g'.minIndex = g.minIndex) :
    g'.Seals config p d d'' := by
  cases huse with
  | keep => exact h
  | write n bs hhead => exact h.write hhead n bs
  | rotate hrotate => exact h.rotate hrotate
  | checkLimits => exact h.checkLimits hmin
  | close => exact h.close

/-- What is sealed from now on is sealed in the same way. -/
theorem again : g.Seals config p d' d' := by
  have hconfined := Confined.refl h.confined.folder
  refine ⟨⟨hconfined, h.settings, h.admits, h.max, fun id hid => ?_⟩,
    h.confined.folder, h.free,
    fun _ _ _ _ hn => hn, fun _ hf => hf⟩
  have hhead := (h.head id hid).1
  exact ⟨hhead, .inl hhead⟩

theorem spares : Spares p d d' := by
  intro name f hname hlast hfind
  obtain ⟨_, hlt, ⟨⟩⟩ := h.base.file name _ hfind
  exact ⟨h.names name _ hname hlast hfind, h.confined.contents f hlt⟩

end Seals

/-! ## Opening -/

/-- The number of the head is above those of the tails. -/
theorem lt_numbers {indices : List Nat} (hi : i ∈ indices)
    (hlt : (numbers indices).2 < Saturating.ceiling) : i < (numbers indices).2 := by
  cases hmax : indices.max? with
  | none =>
    rw [List.max?_eq_none_iff] at hmax
    exact absurd hi (hmax ▸ List.not_mem_nil)
  | some last =>
    have hle : i ≤ last := (List.max?_eq_some_iff.1 hmax).2 i hi
    simp only [numbers, hmax, Saturating.add] at hlt ⊢
    omega

theorem seals_openIn (h : d.Folder (dir config) p) (hopen : openIn config d = (.ok g, d')) :
    g.Seals config p d d' := by
  have htends := tends_openIn h hopen
  obtain ⟨-, id, rfl, hcase⟩ := openIn_eq_ok h hopen
  have hothers : ∀ name, name ≠ headName → d'.find? (p ++ [name]) = d.find? (p ++ [name]) := by
    intro name hname
    obtain ⟨-, rfl⟩ | ⟨-, -, rfl⟩ := hcase
    · rfl
    · simp [Disk.find?_create, hname]
  refine ⟨htends, h, fun hlt i hi hle => ?_,
    fun name n hname _ hn => (hothers name hname).trans hn, fun f hf => ?_⟩
  · rw [hothers _ (tailName_ne_headName i)]
    by_contra hfind
    have hmem : i ∈ (d.names p).filterMap index? := List.mem_filterMap.2
      ⟨tailName i, Disk.mem_names.2 (Option.ne_none_iff_exists'.1 hfind), index?_tailName hle⟩
    exact Nat.not_lt.2 hi (lt_numbers hmem hlt)
  · obtain ⟨-, rfl⟩ | ⟨-, rfl, rfl⟩ := hcase
    · exact hf
    · exact twice_of_new h (fun a => a) (htends.head _ rfl).1 hothers
        (fun _ _ _ _ heq => heq) hf

end Group

namespace Workbench

variable {w : Workbench} {config : LogConfig} {p : Path} {d : Disk} {g : Group}
  {actions : List WorkbenchAction}

theorem run_openLog_of_openIn {d' : Disk} (w : Workbench) (hvalid : config.validate = .ok ())
    (hopen : Group.openIn config w.disk = (.ok g, d')) (watched : Bool) :
    (w.run (.openLog config watched)).1.isDone = true ∧
      (w.run (.openLog config watched)).2.group = some g ∧
      (w.run (.openLog config watched)).2.disk = d' := by
  obtain ⟨hdisk, hgroup⟩ := w.run_openLog hvalid watched
  rw [hopen] at hdisk hgroup
  refine ⟨?_, hgroup, hdisk⟩
  rw [isDone_run_openLog, hgroup]
  rfl

theorem minIndex_le_runAll (hg : w.group = some g) (hactions : ∀ a ∈ actions, a.isUse = true) :
    ∃ g', (w.runAll actions).group = some g' ∧ g.minIndex ≤ g'.minIndex := by
  induction actions generalizing w g with
  | nil => exact ⟨g, hg, Nat.le_refl _⟩
  | cons a actions ih =>
    obtain ⟨ha, hrest⟩ := List.forall_mem_cons.1 hactions
    obtain ⟨g₁, hg₁, huse⟩ := run_use hg ha
    obtain ⟨g', hg', hle⟩ := ih hg₁ hrest
    exact ⟨g', hg', Nat.le_trans huse.minIndex_le hle⟩

/-- Where the length of all segments is not limited, nothing is trimmed. -/
theorem minIndex_runAll_of_unlimited (h : w.Tended config p d) (hlimit : config.totalSizeLimit = 0)
    (hactions : ∀ a ∈ actions, a.isUse = true) :
    (w.runAll actions).group.map Group.minIndex = w.group.map Group.minIndex := by
  induction actions generalizing w with
  | nil => rfl
  | cons a actions ih =>
    obtain ⟨ha, hrest⟩ := List.forall_mem_cons.1 hactions
    obtain ⟨g, hg, htends⟩ := h
    obtain ⟨g₁, hg₁, huse⟩ := run_use hg ha
    refine (ih ⟨g₁, hg₁, htends.use huse⟩ hrest).trans ?_
    rw [hg₁, hg, Option.map_some, Option.map_some,
      huse.minIndex_eq_of_unlimited (htends.settings ▸ hlimit)]

/-- What a run keeps that trims nothing. -/
theorem seals_runAll (hg : w.group = some g) (h : g.Seals config p d w.disk)
    (hactions : ∀ a ∈ actions, a.isUse = true)
    (hmin : (w.runAll actions).group.map Group.minIndex = some g.minIndex) :
    ∃ g', (w.runAll actions).group = some g' ∧ g'.Seals config p d (w.runAll actions).disk := by
  induction actions generalizing w g with
  | nil => exact ⟨g, hg, h⟩
  | cons a actions ih =>
    obtain ⟨ha, hrest⟩ := List.forall_mem_cons.1 hactions
    obtain ⟨g₁, hg₁, huse⟩ := run_use hg ha
    -- the lowest number has not grown on the way
    have hsame : g₁.minIndex = g.minIndex := by
      obtain ⟨g', hg', hle⟩ := minIndex_le_runAll hg₁ hrest
      have hlast : g'.minIndex = g.minIndex := by
        change ((w.run a).2.runAll actions).group.map Group.minIndex = some g.minIndex at hmin
        rw [hg'] at hmin
        exact Option.some.inj hmin
      exact Nat.le_antisymm (hlast ▸ hle) huse.minIndex_le
    exact ih hg₁ (h.use huse hsame) hrest (hsame ▸ hmin)

/-- Sealing among any files, by uses of the log that trim nothing. Each file that was there when the
    log was opened keeps its name and what is in it, and so does each file that is there at any
    time later on; only the head gets another name when it is sealed, and is written to. The
    name that it gets is not in use, and the segments are at different places, and different
    files unless they were one file at the beginning. The exception is the last name for a tail:
    a file that has it is gone when the head is sealed. -/
theorem seals_apart {watched : Bool} {before after : List WorkbenchAction}
    (hfolder : w.disk.Folder (Group.dir config) p)
    (hopen : (w.run (.openLog config watched)).1.isDone = true)
    (hbefore : ∀ a ∈ before, a.isUse = true) (hafter : ∀ a ∈ after, a.isUse = true)
    (hmin : (((w.run (.openLog config watched)).2.runAll before).runAll after).group.map
      Group.minIndex = (w.run (.openLog config watched)).2.group.map Group.minIndex) :
    let used := (w.run (.openLog config watched)).2.runAll before
    Group.Spares p w.disk used.disk ∧ Group.Spares p used.disk (used.runAll after).disk ∧
    ∃ g, used.group = some g ∧
      (∀ g' d', g.rotate used.disk = .ok (g', d') →
        (used.disk.find? (p ++ [tailName g.maxIndex]) = none ∨
          g.maxIndex = Saturating.ceiling) ∧
        d'.find? (p ++ [tailName g.maxIndex]) = used.disk.find? (p ++ [headName]) ∧
        ∀ name, name ≠ headName → name ≠ tailName g.maxIndex →
          d'.find? (p ++ [name]) = used.disk.find? (p ++ [name])) ∧
      ∀ i j, i < j → j ≤ g.maxIndex →
        (∀ q q', used.disk.locate (g.segmentRoute i) = .ok q →
          used.disk.locate (g.segmentRoute j) = .ok q' → q ≠ q') ∧
        ∀ f, used.disk.fileAt (g.segmentRoute i) = .ok f →
          used.disk.fileAt (g.segmentRoute j) = .ok f → w.disk.Twice p f := by
  intro used
  obtain ⟨g₀, hresult, hg₀⟩ := openIn_of_isDone hopen
  have hseals₀ := Group.seals_openIn hfolder hresult
  obtain ⟨g, hg, hle⟩ := minIndex_le_runAll hg₀ hbefore
  obtain ⟨g', hg', hle'⟩ := minIndex_le_runAll hg hafter
  have hlast : g'.minIndex = g₀.minIndex := by
    rw [hg', hg₀] at hmin
    exact Option.some.inj hmin
  have hsame : g.minIndex = g₀.minIndex := Nat.le_antisymm (hlast ▸ hle') hle
  obtain ⟨_, hg₁, hseals⟩ := seals_runAll hg₀ hseals₀ hbefore (by rw [hg, Option.map_some, hsame])
  cases hg.symm.trans hg₁
  obtain ⟨_, -, hlater⟩ := seals_runAll hg hseals.again hafter
    (by rw [hg', Option.map_some, hlast, hsame])
  refine ⟨hseals.spares, hlater.spares, g, hg, fun g₁ d₁ hrotate => ⟨hseals.next_free, ?_⟩,
    fun i j hij hj => ⟨fun q q' hq hq' => ?_, fun f hi hf => ?_⟩⟩
  · exact (hseals.find?_rotate hrotate).2
  · rw [hseals.locate_segmentRoute hq, hseals.locate_segmentRoute hq', ne_eq,
      List.append_cancel_left_eq, List.singleton_inj]
    exact Group.segmentName_ne hij hj
  · exact hseals.twice f ⟨_, _, Group.segmentName_ne hij hj, hseals.find?_segment hi,
      hseals.find?_segment hf⟩

/-- The head has the number after that of the tail. -/
theorem openIn_amongOthers : Group.openIn (.dev "root") amongOthers.disk =
    (.ok ⟨.dev "root", some 3, 0, 3, 4⟩, amongOthers.disk.create ["root", headName]) :=
  Group.openIn_of_headless folder_amongOthers (by decide +kernel) (by decide)

/-- Two heads are sealed behind a tail. It stays, and so does the first of them. -/
theorem seals_apart_amongOthers :
    let used := (amongOthers.run (.openLog (.dev "root") false)).2.runAll
      [.write (.endHeight ⟨5⟩), .rotate]
    let later := used.runAll [.rotate, .checkLimits]
    used.disk.find? ["root", "WAL.003"] = some (.file 0) ∧ used.disk.content 2 = [3] ∧
      used.disk.find? ["root", "WAL.004"] = some (.file 3) ∧
      later.disk.find? ["root", "WAL.004"] = some (.file 3) := by
  have hsealed : ((amongOthers.run (.openLog (.dev "root") false)).2.runAll
      [.write (.endHeight ⟨5⟩), .rotate]).disk.find? ["root", "WAL.004"] = some (.file 3) := by
    decide +kernel
  obtain ⟨hopen, -⟩ := amongOthers.run_openLog_of_openIn rfl openIn_amongOthers false
  have hbefore : ∀ a ∈ [WorkbenchAction.write (.endHeight ⟨5⟩), .rotate], a.isUse = true := by
    decide
  have hafter : ∀ a ∈ [WorkbenchAction.rotate, .checkLimits], a.isUse = true := by decide
  intro used later
  have htended := tended_openLog folder_amongOthers hopen
  obtain ⟨hkept, hlater, -⟩ := seals_apart folder_amongOthers hopen hbefore hafter
    ((minIndex_runAll_of_unlimited (htended.runAll hbefore) rfl hafter).trans
      (minIndex_runAll_of_unlimited htended rfl hbefore))
  obtain ⟨htail, -⟩ := hkept "WAL.003" 0 (by decide) (fun heq => absurd heq (by decide)) (by decide)
  obtain ⟨-, hold⟩ := hkept "WAL.old" 2 (by decide) (fun heq => absurd heq (by decide)) (by decide)
  exact ⟨htail, hold (by decide), hsealed,
    (hlater "WAL.004" 3 (by decide) (fun heq => absurd heq (by decide)) hsealed).1⟩

/-- A directory with the last tail that can be numbered. -/
def lastTail : Workbench where
  root := "root"
  disk := ⟨[(["root"], .directory), (["root", "WAL.18446744073709551615"], .file 0)], [[1, 2]]⟩
  group := none
  watched := false
  readers := []

theorem folder_lastTail : lastTail.disk.Folder (Group.dir (.dev "root")) ["root"] := by
  refine Disk.folder_of_entries rfl ?_ (by decide : (lastTail.disk.names ["root"]).Nodup)
  simp only [lastTail, List.forall_mem_cons, List.not_mem_nil, false_implies, implies_true]
  refine ⟨fun name hname => ?_, fun _ _ => ⟨0, by decide, rfl⟩, trivial⟩
  cases Disk.nameIn_eq_some.1 hname

/-- The head has the same number as the tail. -/
theorem openIn_lastTail : Group.openIn (.dev "root") lastTail.disk =
    (.ok ⟨.dev "root", some 1, 0, Saturating.ceiling, Saturating.ceiling⟩,
      lastTail.disk.create ["root", headName]) :=
  Group.openIn_of_headless folder_lastTail (by decide +kernel) (by decide)

/-- So an empty head is sealed in the place of the tail. -/
theorem seal_replaces_lastTail :
    let opened := lastTail.run (.openLog (.dev "root") false)
    let sealed := opened.2.run .rotate
    lastTail.disk.Folder (Group.dir (.dev "root")) ["root"] ∧ opened.1.isDone = true ∧
      lastTail.disk.find? ["root", tailName Saturating.ceiling] = some (.file 0) ∧
      lastTail.disk.content 0 = [1, 2] ∧ sealed.1.isDone = true ∧
      sealed.2.group.map Group.minIndex = opened.2.group.map Group.minIndex ∧
      sealed.2.disk.find? ["root", tailName Saturating.ceiling] = some (.file 1) ∧
      sealed.2.disk.content 1 = [] := by
  intro opened sealed
  obtain ⟨hopen, hgroup, hdisk⟩ := lastTail.run_openLog_of_openIn rfl openIn_lastTail false
  have htends := Group.tends_openIn folder_lastTail openIn_lastTail
  have hrotate := htends.rotate_of_admits rfl (by decide +kernel)
  have hsealed : sealed = _ := run_rotate hgroup
  rw [hdisk, hrotate] at hsealed
  rw [hsealed]
  refine ⟨folder_lastTail, hopen, by decide, rfl, rfl, ?_, ?_, ?_⟩
  · rw [hgroup]
    rfl
  · rw [← (htends.head 1 rfl).1]
    exact (htends.find?_rotate hrotate).2.1
  · rfl

end Workbench

end ConsensusCore
