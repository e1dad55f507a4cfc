import Mathlib.Data.List.Perm.Subperm
import Conformance.Proofs.Additions
import Conformance.Proofs.Comparison
import Conformance.Proofs.Described
import Conformance.Proofs.Gains

/-!
# Runs converge

A run is followed pass by pass. Its state is the snapshot that the next pass starts from, and
beside it, as a record that no pass reads, the gains of the passes before. Every gain on record
is named by the declaration that got it (`RunInv`), so no later pass repeats it; all of them lie
in the finite set of offers, which does not change; and each pass but the last adds to the
record. So the limit on the number of passes is never met.

That a run comes to its end takes more than that. It does if every pass does (`run_converges`), and
a pass does if every search does (`isSome_outcome?_iff`). A search that never ends keeps a run from
its end in the first pass already (`endless_run`).
-/

namespace Conformance

open Java

/-- What a run has come to before a pass. -/
structure RunState where
  /-- The number of the pass. -/
  number : Nat
  disk : Disk
  snapshot : Snapshot
  /-- What the declarations got in the passes before. -/
  gains : List Gain

namespace RunState

variable (o : Options) (r : RunState)

/-- The interfaces that classes are compared with in the pass. -/
def catalog : Catalog := r.snapshot.catalog o.packages

/-- The files of the pass with what is added to them, and the record of it. -/
def retrofitted? : Option (List SourceFile × List Addition) :=
  r.snapshot.retrofitted? (r.catalog o) r.number

/-- The pass. -/
def outcome? : Option PassOutcome := r.snapshot.pass? (r.catalog o) r.number r.disk

/-- No search of the pass goes on for ever. -/
def Ends : Prop :=
  ∀ file ∈ r.snapshot.project, ∀ f, r.snapshot.files[file]? = some f → ∀ d ∈ f.types,
    d.kind = .plainClass → r.snapshot.store.contains (f.qualify d.name) = true →
    ∀ i ∈ (r.catalog o).entries, i.name ≠ f.qualify d.name →
      r.snapshot.store.search (f.qualify d.name) i ≠ .endless

/-- What the declarations get in the pass. -/
def newGains : List Gain := r.snapshot.gains (r.catalog o) r.number

end RunState

/-- The last pass added nothing and wrote nothing. -/
def RunReport.EndsIdle (report : RunReport) : Prop :=
  ∃ last, report.passes.getLast? = some last ∧ last.pass = report.passes.length
    ∧ last.additions = 0 ∧ last.filesWritten = 0

namespace Options

/-- A pass that added something was saved, and the project could be read again. -/
inductive Step (o : Options) : RunState → RunState → Prop
  | pass {r : RunState} {p : PassOutcome} {summary : PassSummary} {s : Snapshot}
      (hpass : r.outcome? o = some p) (hadds : p.additions ≠ []) (hresult : p.result = .ok summary)
      (hload : Snapshot.load p.disk o = .ok s) :
      Step o r ⟨r.number + 1, p.disk, s, r.gains ++ r.newGains o⟩

/-- The states that a run comes to from a disk, whatever limit there is on its passes. -/
inductive Reachable (o : Options) (disk : Disk) : RunState → Prop
  | start {s : Snapshot} (hload : Snapshot.load disk o = .ok s) : Reachable o disk ⟨1, disk, s, []⟩
  | tail {r r' : RunState} (hr : Reachable o disk r) (hs : Step o r r') : Reachable o disk r'

/-- Reading a file that a run saves gives back what was saved. -/
def Rereads (o : Options) (disk : Disk) : Prop :=
  ∀ r, Reachable o disk r → ∀ saved, r.retrofitted? o = some saved → ∀ f ∈ saved.1,
    f.isModified = true → f.Rereads

/-- No archive of the classpath is taken for a source file. Otherwise a pass could rewrite the
classpath, and names would not mean in the next pass what they mean in this one. Entries that are
told apart by their paths are never of that kind (`sourcesApart_of_ofPath`), and a command line has
no others. -/
def SourcesApart (o : Options) : Prop :=
  ∀ path, .archive path ∈ o.classpath → Disk.isSource path = false

/-- **What it means for a run to converge.** -/
structure Converges (o : Options) (disk : Disk) : Prop where
  /-- The limit on the number of passes is never met. -/
  withinLimit : ∀ out, o.run? disk = some out → ∀ passes, out.result ≠ .error (.noConvergence passes)
  /-- Over all passes no declaration gets an interface twice. -/
  once : ∀ r, Reachable o disk r → (r.gains ++ r.newGains o).Nodup
  /-- In the next pass a declaration is the same but for its list of interfaces, which begins
  as it was. -/
  grows : ∀ r r', Reachable o disk r → Step o r r' → ∀ file position d,
    r.snapshot.declaration? file position = some d →
      ∃ d', r'.snapshot.declaration? file position = some d' ∧ d'.outline = d.outline
        ∧ d.interfaces <+: d'.interfaces
  /-- There are at most as many passes as pairs of a class and an interface, and one more. -/
  bounded : ∀ s, Snapshot.load disk o = .ok s → ∀ r, Reachable o disk r →
    r.number ≤ s.targets.length * (s.catalog o.packages).size + 1
  /-- The run comes to its end if all searches do. -/
  returns : (∀ r, Reachable o disk r → r.Ends o) → (o.run? disk).isSome
  /-- Without a fault the run ends with a pass that changes nothing. -/
  ends : ∀ out report, o.run? disk = some out → out.result = .ok report → ∃ r p, Reachable o disk r
    ∧ report.passes.length = r.number
    ∧ report.additions.map Addition.interface = r.gains.map Gain.interface
    ∧ r.outcome? o = some p ∧ p.additions = [] ∧ out.disk = r.disk ∧ report.EndsIdle

end Options

/-! ## What holds before every pass -/

namespace Snapshot

variable {s : Snapshot} {catalog : Catalog} {number : Nat} {disk : Disk} {p : PassOutcome}
  {files : List SourceFile} {additions : List Addition}

theorem pass?_eq_some : s.pass? catalog number disk = some p ↔ ∃ r,
    s.retrofitted? catalog number = some r ∧ p = s.saved catalog number disk r.1 r.2 := by
  unfold pass?
  simp only [Option.bind_eq_bind, Option.bind_eq_some_iff, Option.pure_def, Option.some.injEq,
    eq_comm (a := p)]

theorem saved_additions (s : Snapshot) (catalog : Catalog) (number : Nat) (disk : Disk)
    (files : List SourceFile) (additions : List Addition) :
    (s.saved catalog number disk files additions).additions = additions := by
  unfold saved
  dsimp only
  split
  · next hnone => exact (List.isEmpty_iff.mp hnone).symm
  · split <;> rfl

/-- A pass that added something and met no fault has saved its files. -/
theorem save_of_saved {summary : PassSummary} (hadds : additions ≠ [])
    (hresult : (s.saved catalog number disk files additions).result = .ok summary) :
    ∃ w, disk.save files = ((s.saved catalog number disk files additions).disk, .ok w) := by
  unfold saved at hresult ⊢
  dsimp only at hresult ⊢
  rw [if_neg (fun h => hadds (List.isEmpty_iff.mp h))] at hresult ⊢
  split at hresult
  · cases hresult
  · next saved w hsave => exact ⟨_, hsave⟩

/-- A pass fails for the sake of its source files only. -/
theorem saved_fault {fault : ProjectFault}
    (h : (s.saved catalog number disk files additions).result = .error fault) :
    ∃ cause, fault = .source cause := by
  unfold saved at h
  dsimp only at h
  split at h
  · cases h
  · split at h
    · cases h
      exact ⟨_, rfl⟩
    · cases h

/-- A pass that adds nothing changes nothing. -/
theorem saved_idle (s : Snapshot) (catalog : Catalog) (number : Nat) (disk : Disk)
    (files : List SourceFile) :
    (s.saved catalog number disk files []).disk = disk
      ∧ (s.saved catalog number disk files []).result = .ok
        { pass := number, classes := s.targets.length, interfaces := catalog.size
          additions := 0, filesWritten := 0 } :=
  ⟨rfl, rfl⟩

/-- Reading a project has nothing to do with the number of passes. -/
theorem load_ne_noConvergence (disk : Disk) (o : Options) (passes : Nat) :
    load disk o ≠ .error (.noConvergence passes) := by
  intro h
  unfold load at h
  cases hbuild : ClasspathIndex.build disk o.classpath with
  | error fault => simp [hbuild, bind, Except.bind, Except.mapError] at h
  | ok index =>
    cases hscan : disk.sources o.scanDir with
    | error fault => simp [hbuild, hscan, bind, Except.bind, Except.mapError] at h
    | ok texts =>
      cases hdir : o.interfacesDir with
      | none =>
        simp [hbuild, hscan, hdir, bind, Except.bind, Except.mapError, pure, Except.pure] at h
      | some dir =>
        cases hfound : disk.sources dir with
        | error fault =>
          simp [hbuild, hscan, hdir, hfound, bind, Except.bind, Except.mapError] at h
        | ok found =>
          simp [hbuild, hscan, hdir, hfound, bind, Except.bind, Except.mapError, pure,
            Except.pure] at h

end Snapshot

namespace Options

variable {o : Options} {disk : Disk} {first : Snapshot} {r r' : RunState} {p : PassOutcome}

/-- A pass comes to its end exactly if all its searches do. -/
theorem isSome_outcome?_iff : (r.outcome? o).isSome ↔ r.Ends o := by
  have hfiles : r.outcome? o = none ↔ ∃ e ∈ r.snapshot.files.zipIdx,
      (if r.snapshot.project.contains e.2 then
        Retrofit.file? r.snapshot.store (r.catalog o) r.number e.1 else some (e.1, [])) = none := by
    unfold RunState.outcome? Snapshot.pass? Snapshot.retrofitted?
    simp only [Option.bind_eq_bind, Option.bind_eq_none_iff, Option.pure_def, reduceCtorEq,
      imp_false, ← Option.eq_none_iff_forall_ne_some, Option.bind_eq_none_iff, mapM_eq_none_iff]
  rw [← not_iff_not, Option.not_isSome_iff_eq_none, hfiles]
  unfold RunState.Ends
  push Not
  constructor
  · rintro ⟨⟨f, file⟩, hmem, hnone⟩
    split at hnone
    · next hproject =>
      obtain ⟨d, hd, hkind, hcontains, i, hi, hname, hendless⟩ := Retrofit.file?_eq_none.mp hnone
      exact ⟨file, List.contains_iff_mem.mp hproject, f, List.mem_zipIdx_iff_getElem?.mp hmem, d, hd,
        hkind, hcontains, i, hi, hname, hendless⟩
    · cases hnone
  · rintro ⟨file, hproject, f, hf, d, hd, hkind, hcontains, i, hi, hname, hendless⟩
    refine ⟨(f, file), List.mem_zipIdx_iff_getElem?.mpr hf, ?_⟩
    rw [if_pos (List.contains_iff_mem.mpr hproject)]
    exact Retrofit.file?_eq_none.mpr ⟨d, hd, hkind, hcontains, i, hi, hname, hendless⟩

/-- What holds of a state that a run comes to from its first snapshot. -/
structure RunInv (o : Options) (first : Snapshot) (r : RunState) : Prop where
  proper : r.disk.Proper
  loaded : Snapshot.load r.disk o = .ok r.snapshot
  /-- The snapshots of a run have the same outline. -/
  outline : Snapshot.SameOutline first r.snapshot
  /-- Each pass had a gain. -/
  counted : r.number ≤ r.gains.length + 1
  /-- No gain was made twice. -/
  distinct : r.gains.Nodup
  /-- There are finitely many gains to make. -/
  offered : ∀ g ∈ r.gains, g ∈ first.offers o.packages
  /-- What a declaration got it names. -/
  named : ∀ g ∈ r.gains, r.snapshot.Names g

theorem runInv_start (hproper : disk.Proper) (hload : Snapshot.load disk o = .ok first) :
    RunInv o first ⟨1, disk, first, []⟩ where
  proper := hproper
  loaded := hload
  outline := .refl first
  counted := Nat.le_refl 1
  distinct := List.nodup_nil
  offered := by simp
  named := by simp

/-- A pass makes gains that were not made before. -/
theorem nodup_newGains (h : RunInv o first r) : (r.gains ++ r.newGains o).Nodup := by
  rw [List.nodup_append]
  refine ⟨h.distinct, r.snapshot.nodup_gains _ _, ?_⟩
  intro g hg g' hg' heq
  subst heq
  -- a gain on record is named, and what is named is not gained
  exact Snapshot.not_names_of_gain hg' (h.named g hg)

theorem offered_newGains (h : RunInv o first r) :
    ∀ g ∈ r.gains ++ r.newGains o, g ∈ first.offers o.packages := by
  rw [List.forall_mem_append]
  refine ⟨h.offered, fun g hg => ?_⟩
  rw [← Snapshot.offers_eq h.outline o.packages]
  exact Snapshot.mem_offers_of_gain hg

/-- Paths to archives do not end like those of source files. -/
theorem sourcesApart_of_ofPath (h : ∀ e ∈ o.classpath, e = .ofPath e.path) : o.SourcesApart := by
  intro path hmem
  have hpath := h _ hmem
  unfold ClasspathEntry.ofPath ClasspathEntry.path at hpath
  dsimp only at hpath
  unfold Disk.isSource
  cases hextension : Path.extension? path with
  | none => rfl
  | some extension =>
    rw [hextension] at hpath
    dsimp only at hpath
    by_cases hjava : extension = "java"
    · -- a path with this extension means a folder
      subst hjava
      rw [if_neg (by decide +kernel)] at hpath
      cases hpath
    · rw [decide_eq_false_iff_not, Option.some.injEq]
      exact hjava

theorem outcome?_eq_some : r.outcome? o = some p ↔ ∃ saved, r.retrofitted? o = some saved
    ∧ p = r.snapshot.saved (r.catalog o) r.number r.disk saved.1 saved.2 :=
  Snapshot.pass?_eq_some

/-- The additions of a pass are its gains. -/
theorem newGains_interface (hpass : r.outcome? o = some p) :
    (r.newGains o).map Gain.interface = p.additions.map Addition.interface := by
  obtain ⟨saved, hsaved, rfl⟩ := outcome?_eq_some.mp hpass
  rw [Snapshot.saved_additions]
  exact Snapshot.gains_interface hsaved

/-- What a step makes of the files is what the next snapshot reads. -/
theorem load_after_step (hapart : o.SourcesApart)
    (hrereads : ∀ saved, r.retrofitted? o = some saved → ∀ f ∈ saved.1, f.isModified = true →
      f.Rereads)
    (h : RunInv o first r) (hs : Step o r r') :
    ∃ saved, r.retrofitted? o = some saved ∧ r'.disk.Proper
      ∧ Snapshot.SameOutline r.snapshot r'.snapshot
      ∧ List.Forall₂ SourceFile.SaysSame saved.1 r'.snapshot.files := by
  cases hs with
  | pass hpass hadds hresult hload =>
    obtain ⟨saved, hsaved, rfl⟩ := outcome?_eq_some.mp hpass
    rw [Snapshot.saved_additions] at hadds
    obtain ⟨w, hsave⟩ := Snapshot.save_of_saved hadds hresult
    exact ⟨saved, hsaved, Snapshot.load_after_pass hsaved h.proper hapart h.loaded
      (hrereads saved hsaved) hsave hload⟩

/-- **Every pass preserves what holds before it.** -/
theorem runInv_step (hapart : o.SourcesApart)
    (hrereads : ∀ saved, r.retrofitted? o = some saved → ∀ f ∈ saved.1, f.isModified = true →
      f.Rereads)
    (h : RunInv o first r) (hs : Step o r r') : RunInv o first r' := by
  obtain ⟨saved, hsaved, hproper, houtline, hsaid⟩ := load_after_step hapart hrereads h hs
  cases hs with
  | pass hpass hadds hresult hload =>
    -- a pass with additions has gains
    have hgain : r.newGains o ≠ [] := by
      intro hnone
      have hinterfaces := newGains_interface hpass
      rw [hnone, List.map_nil] at hinterfaces
      exact hadds (List.map_eq_nil_iff.mp hinterfaces.symm)
    refine ⟨hproper, hload, h.outline.trans houtline, ?_, nodup_newGains h, offered_newGains h, ?_⟩
    · have hpos := List.length_pos_iff.mpr hgain
      have hcounted := h.counted
      rw [List.length_append]
      dsimp only
      omega
    · rw [List.forall_mem_append]
      constructor
      · intro g hg
        exact Snapshot.names_after_pass hsaved hsaid houtline.kinds (.inl (h.named g hg))
      · intro g hg
        exact Snapshot.names_after_pass hsaved hsaid houtline.kinds (.inr hg)

theorem runInv_reachable (hproper : disk.Proper)
    (hapart : o.SourcesApart) (hrereads : o.Rereads disk)
    (hfirst : Snapshot.load disk o = .ok first) (h : Reachable o disk r) : RunInv o first r := by
  induction h with
  | start hload =>
    rw [hfirst, Except.ok.injEq] at hload
    subst hload
    exact runInv_start hproper hfirst
  | tail hr hs ih => exact runInv_step hapart (hrereads _ hr) ih hs

theorem Reachable.load_eq_ok (h : Reachable o disk r) : ∃ s, Snapshot.load disk o = .ok s := by
  induction h with
  | start hload => exact ⟨_, hload⟩
  | tail _ _ ih => exact ih

theorem load_of_run? {out : RunOutcome} {report : RunReport} (h : o.run? disk = some out)
    (hreport : out.result = .ok report) : ∃ s, Snapshot.load disk o = .ok s := by
  unfold run? at h
  split at h
  · cases h
    cases hreport
  · split at h
    · cases h
      cases hreport
    · next s hload => exact ⟨s, hload⟩

/-- The record of a run is no longer than there are pairs of a class and an interface. -/
theorem number_le (h : RunInv o first r) :
    r.number ≤ first.targets.length * (first.catalog o.packages).size + 1 := by
  have hlength := (List.Nodup.subperm h.distinct fun g hg => h.offered g hg).length_le
  rw [first.length_offers] at hlength
  have hcounted := h.counted
  omega

/-- Without a limit in the options the limit is the same before every pass. -/
theorem passLimit_eq (hmax : o.maxPasses = none) (h : RunInv o first r) :
    o.passLimit r.snapshot (r.catalog o)
      = first.targets.length * (first.catalog o.packages).size + 1 := by
  rw [passLimit, hmax, Option.getD_none, Snapshot.targets_eq h.outline, RunState.catalog,
    h.outline.catalog_size]

/-! ## Whole runs -/

/-- What the passes from a state on come to: the limit on their number is not met, and if there
is no fault, the last of them changes nothing. -/
structure Finishes (o : Options) (disk : Disk) (r : RunState) (out : RunOutcome) : Prop where
  withinLimit : ∀ passes, out.result ≠ .error (.noConvergence passes)
  ends : ∀ report, out.result = .ok report → ∃ r' p, Reachable o disk r'
    ∧ r.number + report.passes.length = r'.number + 1
    ∧ r.gains.map Gain.interface ++ report.additions.map Addition.interface
        = r'.gains.map Gain.interface
    ∧ r'.outcome? o = some p ∧ p.additions = [] ∧ out.disk = r'.disk
    ∧ ∃ last, report.passes.getLast? = some last ∧ last.pass = r'.number ∧ last.additions = 0
      ∧ last.filesWritten = 0

theorem finishes_fault {out : RunOutcome} {fault : ProjectFault} (h : out.result = .error fault)
    (hfault : ∀ passes, fault ≠ .noConvergence passes) : Finishes o disk r out where
  withinLimit passes hresult := by
    rw [h, Except.error.injEq] at hresult
    exact hfault passes hresult
  ends report hresult := by
    rw [h] at hresult
    cases hresult

/-- A pass that adds nothing is the last one. -/
theorem finishes_idle (hr : Reachable o disk r) (hpass : r.outcome? o = some p)
    (hnone : p.additions = []) {diagnostics : List Diagnostic} {failures : Nat}
    {summary : PassSummary} (hresult : p.result = .ok summary) :
    Finishes o disk r ⟨p.disk, diagnostics, .ok ⟨[summary], [], failures⟩⟩ where
  withinLimit passes h := by cases h
  ends report h := by
    obtain ⟨saved, hsaved, rfl⟩ := outcome?_eq_some.mp hpass
    rw [Snapshot.saved_additions] at hnone
    rw [Except.ok.injEq] at h
    subst h
    rw [hnone] at hpass hresult ⊢
    obtain ⟨hdisk, hidle⟩ :=
      Snapshot.saved_idle r.snapshot (r.catalog o) r.number r.disk saved.1
    rw [hidle, Except.ok.injEq] at hresult
    subst hresult
    exact ⟨r, _, hr, rfl, List.append_nil _, hpass, rfl, hdisk, _, rfl, rfl, rfl, rfl⟩

/-- A pass that adds something comes before the passes from the next state on. -/
theorem finishes_after (hpass : r.outcome? o = some p) {out : RunOutcome}
    {diagnostics : List Diagnostic} {summary : PassSummary} {s : Snapshot}
    (h : Finishes o disk ⟨r.number + 1, p.disk, s, r.gains ++ r.newGains o⟩ out) :
    Finishes o disk r (out.after diagnostics summary p.additions) := by
  cases hout : out.result with
  | error fault =>
    have hresult : (out.after diagnostics summary p.additions).result = .error fault := by
      rw [RunOutcome.after, hout]
      rfl
    refine finishes_fault hresult ?_
    intro passes heq
    rw [heq] at hout
    exact h.withinLimit passes hout
  | ok rest =>
    obtain ⟨r', p', hr', hlength, hgains, hpass', hnone, hdisk, last, hlast, hfacts⟩ :=
      h.ends rest hout
    -- the additions of the pass go on record as its gains
    have hnew := newGains_interface hpass
    have hresult : (out.after diagnostics summary p.additions).result
        = .ok { rest with
          passes := summary :: rest.passes
          additions := p.additions ++ rest.additions } := by
      rw [RunOutcome.after, hout]
      rfl
    refine ⟨fun passes hfault => ?_, fun report hreport => ?_⟩
    · rw [hresult] at hfault
      cases hfault
    · rw [hresult, Except.ok.injEq] at hreport
      subst hreport
      refine ⟨r', p', hr', ?_, ?_, hpass', hnone, hdisk, last, ?_, hfacts⟩
      · dsimp only at hlength ⊢
        rw [List.length_cons]
        omega
      · dsimp only at hgains ⊢
        rw [List.map_append, hnew, List.append_assoc] at hgains
        rw [List.map_append]
        exact hgains
      · dsimp only
        rw [List.getLast?_cons, hlast]
        rfl

section Passes

variable (hmax : o.maxPasses = none) (hproper : disk.Proper) (hapart : o.SourcesApart)
  (hrereads : o.Rereads disk) (hfirst : Snapshot.load disk o = .ok first)
include hmax hproper hapart hrereads hfirst

/-- **The passes from a state on come to an end before the limit**, if they come to an end at
all; and they do if every pass does. The induction is on the passes that there can still be. -/
theorem finishes_passesFrom? (left : Nat) (hr : Reachable o disk r)
    (hleft : r.number + left = first.targets.length * (first.catalog o.packages).size + 1 + 1) :
    (∀ out, o.passesFrom? r.number r.disk r.snapshot = some out → Finishes o disk r out)
      ∧ ((∀ r', Reachable o disk r' → (r'.outcome? o).isSome) →
        (o.passesFrom? r.number r.disk r.snapshot).isSome) := by
  have hinv := runInv_reachable hproper hapart hrereads hfirst hr
  have hnumber := number_le hinv
  have hlimit := passLimit_eq hmax hinv
  induction left generalizing r with
  | zero => omega
  | succ left ih =>
    unfold RunState.catalog at hlimit
    rw [passesFrom?]
    dsimp only
    -- the limit is what it was before the first pass, and has not been met
    rw [if_neg (by omega)]
    change (∀ out, (r.outcome? o).bind _ = some out → _) ∧ (_ → ((r.outcome? o).bind _).isSome)
    cases hpass : r.outcome? o with
    | none =>
      refine ⟨nofun, fun hall => ?_⟩
      have hsome := hall r hr
      rw [hpass] at hsome
      cases hsome
    | some p =>
      rw [Option.bind_some]
      split
      · next fault hfault =>
        refine ⟨fun out hout => ?_, fun _ => rfl⟩
        cases hout
        refine finishes_fault rfl ?_
        obtain ⟨saved, -, rfl⟩ := outcome?_eq_some.mp hpass
        obtain ⟨cause, rfl⟩ := Snapshot.saved_fault hfault
        intro passes heq
        cases heq
      · next summary hresult =>
        split
        · next hnone =>
          refine ⟨fun out hout => ?_, fun _ => rfl⟩
          cases hout
          exact finishes_idle hr hpass (List.isEmpty_iff.mp hnone) hresult
        · next hadds =>
          have hadds' : p.additions ≠ [] := fun h => hadds (List.isEmpty_iff.mpr h)
          split
          · next fault hload =>
            refine ⟨fun out hout => ?_, fun _ => rfl⟩
            cases hout
            refine finishes_fault rfl ?_
            intro passes heq
            rw [heq] at hload
            exact Snapshot.load_ne_noConvergence _ _ passes hload
          · next s hload =>
            have hr' := hr.tail (.pass hpass hadds' hresult hload)
            have hinv' := runInv_reachable hproper hapart hrereads hfirst hr'
            obtain ⟨hrest, hreturns⟩ := ih hr' (by dsimp only; omega) hinv' (number_le hinv')
              (passLimit_eq hmax hinv')
            constructor
            · intro out hout
              obtain ⟨rest, hpasses, hout⟩ := Option.bind_eq_some_iff.mp hout
              cases hout
              exact finishes_after hpass (hrest rest hpasses)
            · intro hall
              obtain ⟨rest, hpasses⟩ := Option.isSome_iff_exists.mp (hreturns hall)
              exact Option.isSome_of_eq_some (Option.bind_eq_some_iff.mpr ⟨rest, hpasses, rfl⟩)

/-- A run is the passes from its first snapshot on. -/
theorem finishes_run? :
    (∀ out, o.run? disk = some out → Finishes o disk ⟨1, disk, first, []⟩ out)
      ∧ ((∀ r, Reachable o disk r → (r.outcome? o).isSome) → (o.run? disk).isSome) := by
  unfold run?
  split
  · refine ⟨fun out hout => ?_, fun _ => rfl⟩
    cases hout
    refine finishes_fault rfl ?_
    intro passes heq
    cases heq
  · rw [hfirst]
    exact finishes_passesFrom? hmax hproper hapart hrereads hfirst _ (.start hfirst)
      (Nat.add_comm 1 _)

end Passes

/-- **A run without a limit on its passes converges.** Each declaration gets an interface once
at most, its list of interfaces only grows at the end, and there are at most as many passes as
pairs of a class and an interface, and one more, the last of which changes nothing. If every search
comes to an end, so does the run. -/
theorem run_converges (hmax : o.maxPasses = none) (hproper : disk.Proper)
    (hapart : o.SourcesApart) (hrereads : o.Rereads disk) :
    Converges o disk := by
  have hinv : ∀ r, Reachable o disk r → ∃ first, Snapshot.load disk o = .ok first
      ∧ RunInv o first r := by
    intro r hr
    obtain ⟨first, hfirst⟩ := hr.load_eq_ok
    exact ⟨first, hfirst, runInv_reachable hproper hapart hrereads hfirst hr⟩
  refine ⟨?_, ?_, ?_, ?_, ?_, ?_⟩
  · intro out hout passes hresult
    cases hfirst : Snapshot.load disk o with
    | ok first =>
      have hfinishes := (finishes_run? hmax hproper hapart hrereads hfirst).1 out hout
      exact hfinishes.withinLimit passes hresult
    | error fault =>
      unfold run? at hout
      rw [hfirst] at hout
      split at hout
      · cases hout
        cases hresult
      · cases hout
        rw [Except.error.injEq] at hresult
        rw [hresult] at hfirst
        exact Snapshot.load_ne_noConvergence _ _ passes hfirst
  · intro r hr
    obtain ⟨first, -, h⟩ := hinv r hr
    exact nodup_newGains h
  · intro r r' hr hs file position d hd
    obtain ⟨first, -, h⟩ := hinv r hr
    obtain ⟨saved, hsaved, -, -, hsaid⟩ := load_after_step hapart (hrereads r hr) h hs
    rw [Snapshot.declaration?, Option.bind_eq_some_iff] at hd
    obtain ⟨f, hf, hd⟩ := hd
    obtain ⟨f', d', hf', hd', -, houtline, hlist⟩ :=
      Snapshot.declaration_after_pass hsaved hsaid hf hd
    refine ⟨d', ?_, houtline, ?_⟩
    · rw [Snapshot.declaration?, hf', Option.bind_some, hd']
    · rw [hlist]
      exact List.prefix_append ..
  · intro s hs r hr
    exact number_le (runInv_reachable hproper hapart hrereads hs hr)
  · intro hends
    cases hfirst : Snapshot.load disk o with
    | ok first =>
      exact (finishes_run? hmax hproper hapart hrereads hfirst).2 fun r hr =>
        isSome_outcome?_iff.mpr (hends r hr)
    | error fault =>
      unfold run?
      rw [hfirst]
      split <;> rfl
  · intro out report hout hresult
    obtain ⟨first, hfirst⟩ := load_of_run? hout hresult
    obtain ⟨r, p, hr, hlength, hgains, hpass, hnone, hdisk, last, hlast, hlastPass, hidle⟩ :=
      ((finishes_run? hmax hproper hapart hrereads hfirst).1 out hout).ends report hresult
    have hnumber : report.passes.length = r.number := by
      dsimp only at hlength
      omega
    exact ⟨r, p, hr, hnumber, hgains, hpass, hnone, hdisk, last, hlast,
      hlastPass.trans hnumber.symm, hidle⟩

/-! ## A run with a gain -/

/-- A disk with one source file, which holds a text. -/
def sampleDisk (text : String) : Disk where
  root := .folder [("p", .folder [("A.java", .file (.text text))])]
  here := []

theorem proper_sampleDisk (text : String) : (sampleDisk text).Proper := by
  refine .folder ?_ (List.pairwise_singleton ..) ?_
  · rw [List.forall_mem_singleton]
    exact ⟨(by decide : "p" ≠ ""), (by decide : '/' ∉ "p".toList),
      (by decide : "p" ≠ "."), (by decide : "p" ≠ "..")⟩
  · rw [List.forall_mem_singleton]
    refine .folder ?_ (List.pairwise_singleton ..) ?_
    · rw [List.forall_mem_singleton]
      exact ⟨(by decide : "A.java" ≠ ""), (by decide : '/' ∉ "A.java".toList),
        (by decide : "A.java" ≠ "."), (by decide : "A.java" ≠ "..")⟩
    · rw [List.forall_mem_singleton]
      exact .file _

/-- Classes and interfaces come from the same folder. -/
def sampleOptions : Options := { scanDir := "/p", interfacesDir := some "/p" }

theorem sourcesApart_sample : sampleOptions.SourcesApart := by
  refine sourcesApart_of_ofPath ?_
  intro e he
  cases he

/-- The only method of `I` and of `C`. -/
def methodF (isAbstract : Bool) : WrittenMethod where
  name := "f"
  typeParams := []
  params := []
  returnType := .void
  isStatic := false
  isPrivate := false
  isAbstract := isAbstract
  isDefault := false

def interfaceI : Declaration where
  kind := .interface
  name := "I"
  typeParams := []
  superclass := none
  declared := []
  added := []
  methods := [methodF true]
  members := []
  anchor := ⟨11, false⟩

def classC (declared added : List WrittenType) (anchor : ClauseAnchor) : Declaration where
  kind := .plainClass
  name := "C"
  typeParams := []
  superclass := none
  declared := declared
  added := added
  methods := [methodF false]
  members := []
  anchor := anchor

def sampleFile (text : String) (classC : Declaration) : SourceFile where
  path := "/p/A.java"
  text := text
  package? := none
  imports := []
  types := [interfaceI, classC]

/-- The file before the run. -/
def fileBefore : SourceFile :=
  sampleFile "interface I{void f();}class C{void f(){}}" (classC [] [] ⟨29, false⟩)

/-- The file as the first pass saves it. -/
def fileSaved : SourceFile :=
  sampleFile "interface I{void f();}class C{void f(){}}" (classC [] [.named "I" []] ⟨29, false⟩)

/-- The file after the run. -/
def fileAfter : SourceFile :=
  sampleFile "interface I{void f();}class C implements I{void f(){}}"
    (classC [.named "I" []] [] ⟨42, true⟩)

/-- The snapshot of a disk with one source file. -/
def sampleSnapshot (f : SourceFile) : Snapshot where
  index := .empty
  store := Snapshot.storeOf .empty [f]
  files := [f]
  project := [0]
  interfaceSources := [0]
  failures := []

theorem load_sample {text : String} {f : SourceFile}
    (h : SourceFile.parse? "/p/A.java" text = some f) :
    Snapshot.load (sampleDisk text) sampleOptions = .ok (sampleSnapshot f) := by
  have hsources : (sampleDisk text).sources "/p" = .ok [.parsed f] := by
    have hwalk : (sampleDisk text).walk? "/p" = some [("/p/A.java", .text text)] := rfl
    have hread : Disk.readSources [("/p/A.java", .text text)]
        = .ok [.ofText "/p/A.java" text] := rfl
    rw [Disk.sources, hwalk]
    dsimp only
    rw [hread, SourceText.ofText, h]
  have hbuild : ClasspathIndex.build (sampleDisk text) [] = .ok .empty := rfl
  have hplace : (sampleDisk text).resolve? f.path = some ["p", "A.java"] := by
    rw [SourceFile.path_of_parse? h]
    rfl
  have hadd : SourceSet.addAll (sampleDisk text) [.parsed f] {}
      = (⟨[(["p", "A.java"], f)], []⟩, [0]) := by
    simp [SourceSet.addAll, SourceSet.add, SourceSet.position?, SourceText.path, hplace]
  -- below the second root the file is found again
  have hagain : SourceSet.addAll (sampleDisk text) [.parsed f] ⟨[(["p", "A.java"], f)], []⟩
      = (⟨[(["p", "A.java"], f)], []⟩, [0]) := by
    simp [SourceSet.addAll, SourceSet.add, SourceSet.position?, SourceText.path, hplace]
  unfold Snapshot.load sampleOptions
  dsimp only
  rw [hbuild, hsources]
  simp only [bind, Except.bind, Except.mapError, pure, Except.pure, hadd, hagain]
  rfl

theorem parse?_before : SourceFile.parse? "/p/A.java" fileBefore.text = some fileBefore := by
  decide +kernel

theorem parse?_after : SourceFile.parse? "/p/A.java" fileAfter.text = some fileAfter := by
  decide +kernel

theorem savedText_sample : fileSaved.savedText = .ok fileAfter.text := by decide +kernel

/-- What a class has to provide for `I`. -/
def wantsF : InterfaceDescriptor where
  name := "I"
  typeParams := []
  methods := [⟨"f", .void, []⟩]
  origin := .source "/p/A.java"

/-- What the store knows of `C` and `I`, before the run and after it. Before the run `C` has nothing
above it but the root. -/
theorem facts_sample :
    (∀ f ∈ [fileBefore, fileAfter], (sampleSnapshot f).store.find? "I" = some
        { name := "I", kind := .interface
          methods := [{ name := "f", params := [], returnType := .void, isAbstract := true }] }
      ∧ (sampleSnapshot f).store.contains "C" = true
      ∧ ((sampleSnapshot f).store.matchClass "C" wantsF).isSome = true
      ∧ keepFirst (fun a b => a.1 = b.1) ((sampleSnapshot f).interfaceNames [])
        = [("I", .source "/p/A.java")])
    ∧ (sampleSnapshot fileBefore).store.ancestors "C" = .ok [.object]
    ∧ (sampleSnapshot fileBefore).store.assignableWithin 4 (.raw "I") .object
        = some (.ok false) := by
  decide +kernel

theorem catalog_sample {f : SourceFile} (hf : f ∈ [fileBefore, fileAfter]) :
    (sampleSnapshot f).catalog [] = ⟨[wantsF]⟩ := by
  obtain ⟨hfind, -, -, hnames⟩ := facts_sample.1 f hf
  have hdescribe : (sampleSnapshot f).store.describe "I" (.source "/p/A.java") = some wantsF := by
    rw [Store.describe_alone hfind rfl rfl]
    rfl
  rw [Snapshot.catalog, hnames]
  simp [hdescribe, Catalog.ofList]

/-- In the first pass `C` gets `I`. -/
theorem file_before :
    Retrofit.file? (sampleSnapshot fileBefore).store ⟨[wantsF]⟩ 1 fileBefore
      = some (fileSaved, [⟨1, "C", "/p/A.java", .raw "I", .named "I" []⟩]) := by
  obtain ⟨hboth, hancestors, hwithin⟩ := facts_sample
  obtain ⟨-, hcontains, hmatch, -⟩ := hboth fileBefore (List.mem_cons_self ..)
  clear hboth
  generalize (sampleSnapshot fileBefore).store = store at *
  obtain ⟨b, hb⟩ := Option.isSome_iff_exists.mp hmatch
  have hwanted : (Retrofit.classOf store fileBefore (classC [] [] ⟨29, false⟩)).wanted? wantsF
      = some (.raw "I") :=
    Retrofit.Candidate.wanted?_eq_some.mpr ⟨(by decide : "I" ≠ "C"), b, hb, rfl⟩
  have hnew : (Retrofit.classOf store fileBefore (classC [] [] ⟨29, false⟩)).has
      ((Retrofit.classOf store fileBefore (classC [] [] ⟨29, false⟩)).after
        (classC [] [] ⟨29, false⟩) []) wantsF = false := by
    have hredundant : store.isRedundant "C" wantsF = false :=
      Store.isRedundant_of_root hancestors (Store.assignable_of_within hwithin)
    rw [Retrofit.Candidate.has, Bool.or_eq_false_iff, Bool.or_eq_false_iff]
    exact ⟨⟨hredundant, rfl⟩, rfl⟩
  have hspell : (fileBefore.scope store).spell (Retrofit.header (classC [] [] ⟨29, false⟩))
      (.raw "I") = .named "I" [] := by
    have hendings : Scope.endings "I" = [] := by decide
    rw [JavaType.raw, Scope.spell, Scope.shortestName, hendings]
    rfl
  have hC := Retrofit.declaration_single 1
    (show (classC [] [] ⟨29, false⟩).kind = .plainClass
      ∧ store.contains (fileBefore.qualify (classC [] [] ⟨29, false⟩).name) = true from
      ⟨rfl, hcontains⟩) hwanted hnew
  have hI : Retrofit.declaration? store ⟨[wantsF]⟩ 1 fileBefore interfaceI = some (interfaceI, []) :=
    Retrofit.declaration?_of_not_known _ _ fun h => absurd h.1 (by decide)
  rw [Retrofit.record, hspell] at hC
  exact Retrofit.file?_eq_some.mpr ⟨_, .cons hI (.cons hC .nil), rfl⟩

theorem retrofitted_before : (sampleSnapshot fileBefore).retrofitted? ⟨[wantsF]⟩ 1
    = some ([fileSaved], [⟨1, "C", "/p/A.java", .raw "I", .named "I" []⟩]) := by
  have hproject : (sampleSnapshot fileBefore).project.contains 0 = true := rfl
  have hfile : (if (sampleSnapshot fileBefore).project.contains 0 then
      Retrofit.file? (sampleSnapshot fileBefore).store ⟨[wantsF]⟩ 1 fileBefore
      else some (fileBefore, [])) = some (fileSaved, [⟨1, "C", "/p/A.java", .raw "I", .named "I" []⟩]) := by
    rw [if_pos hproject, file_before]
  exact Snapshot.retrofitted?_eq_some.mpr ⟨_, .cons hfile .nil, rfl⟩

theorem save_sample : (sampleDisk fileBefore.text).save [fileSaved]
    = (sampleDisk fileAfter.text, .ok ([fileAfter], 1)) := by
  have hmodified : fileSaved.isModified = true := rfl
  have hsave : fileSaved.save = .ok fileAfter := by
    have hparse : SourceFile.parse? fileSaved.path fileAfter.text = some fileAfter := parse?_after
    rw [SourceFile.save, if_pos hmodified, savedText_sample]
    dsimp only [bind, Except.bind, pure, Except.pure]
    rw [SourceFile.withText, hparse]
    rfl
  have hall : saveAll [fileSaved] = ⟨[fileAfter], [fileAfter], none⟩ := by
    rw [saveAll, hsave]
    rfl
  have hwrite : (sampleDisk fileBefore.text).write? fileAfter.path fileAfter.text
      = some (sampleDisk fileAfter.text) := rfl
  rw [Disk.save, hall]
  dsimp only
  rw [Disk.writeSources, hwrite]
  rfl

/-- After the first pass `C` names `I`, and there is nothing more to get. -/
theorem gains_after (number : Nat) :
    (sampleSnapshot fileAfter).gains ((sampleSnapshot fileAfter).catalog sampleOptions.packages)
      number = [] := by
  have hcatalog : (sampleSnapshot fileAfter).catalog [] = ⟨[wantsF]⟩ :=
    catalog_sample (List.mem_cons_of_mem _ (List.mem_singleton_self _))
  rw [List.eq_nil_iff_forall_not_mem]
  intro g hg
  obtain ⟨f, d, hf, -, hd, a, ha, -⟩ := Snapshot.mem_gains_iff.mp hg
  obtain ⟨e, hext⟩ := (sampleSnapshot fileAfter).exists_extended
    ((sampleSnapshot fileAfter).catalog []) number f d
  have hoffered := hext.offered a ha
  rw [hcatalog, List.map_singleton, List.mem_singleton] at hoffered
  have hfresh := hext.fresh a ha
  have hkind := hext.kind a ha
  have hf' := List.mem_of_getElem? hf
  have hd' := List.mem_of_getElem? hd
  have hfiles : (sampleSnapshot fileAfter).files = [fileAfter] := rfl
  have htypes : fileAfter.types = [interfaceI, classC [.named "I" []] [] ⟨42, true⟩] := rfl
  rw [hfiles, List.mem_singleton] at hf'
  subst hf'
  rw [htypes, List.mem_cons, List.mem_singleton] at hd'
  rcases hd' with rfl | rfl
  · cases hkind
  · rw [hoffered] at hfresh
    cases hfresh

/-- The state before the first pass. -/
def stateBefore : RunState := ⟨1, sampleDisk fileBefore.text, sampleSnapshot fileBefore, []⟩

theorem retrofitted_stateBefore : stateBefore.retrofitted? sampleOptions
    = some ([fileSaved], [⟨1, "C", "/p/A.java", .raw "I", .named "I" []⟩]) := by
  rw [← retrofitted_before, ← catalog_sample (List.mem_cons_self ..)]
  rfl

theorem outcome_before : ∃ p summary, stateBefore.outcome? sampleOptions = some p
    ∧ p.disk = sampleDisk fileAfter.text
    ∧ p.additions = [⟨1, "C", "/p/A.java", .raw "I", .named "I" []⟩]
    ∧ p.result = .ok summary := by
  have hsave : stateBefore.disk.save [fileSaved]
      = (sampleDisk fileAfter.text, .ok ([fileAfter], 1)) := save_sample
  have hpass := outcome?_eq_some.mpr ⟨_, retrofitted_stateBefore, rfl⟩
  rw [Snapshot.saved] at hpass
  dsimp only at hpass
  rw [if_neg (by simp), hsave] at hpass
  exact ⟨_, _, hpass, rfl, rfl, rfl⟩

/-- Once `C` names `I`, a pass leaves the files as they are. -/
theorem retrofitted_after {r : RunState} (h : r.snapshot = sampleSnapshot fileAfter)
    {saved : List SourceFile × List Addition} (hsaved : r.retrofitted? sampleOptions = some saved) :
    saved = ([fileAfter], []) := by
  rw [RunState.retrofitted?, RunState.catalog, h] at hsaved
  exact Snapshot.retrofitted_of_no_gains hsaved (gains_after _)

/-- The run comes to two states. -/
theorem reachable_sample {r : RunState}
    (h : Reachable sampleOptions (sampleDisk fileBefore.text) r) :
    r = stateBefore ∨ r.snapshot = sampleSnapshot fileAfter := by
  induction h with
  | start hload =>
    rw [load_sample parse?_before, Except.ok.injEq] at hload
    rw [← hload]
    exact .inl rfl
  | tail hr hs ih =>
    cases hs with
    | pass hpass hadds hresult hload =>
      rcases ih with rfl | hafter
      · obtain ⟨p, summary, hp, hdisk, -⟩ := outcome_before
        rw [hp, Option.some.injEq] at hpass
        rw [← hpass, hdisk, load_sample parse?_after, Except.ok.injEq] at hload
        exact .inr hload.symm
      · -- nothing is added any more
        obtain ⟨saved, hsaved, rfl⟩ := outcome?_eq_some.mp hpass
        rw [Snapshot.saved_additions, retrofitted_after hafter hsaved] at hadds
        exact absurd rfl hadds

theorem rereads_sample : Rereads sampleOptions (sampleDisk fileBefore.text) := by
  intro r hr saved hsaved f hf hmodified
  rcases reachable_sample hr with rfl | hafter
  · rw [retrofitted_stateBefore, Option.some.injEq] at hsaved
    rw [← hsaved, List.mem_singleton] at hf
    subst hf
    intro text htext
    rw [savedText_sample, Except.ok.injEq] at htext
    subst htext
    exact ⟨fileAfter, parse?_after, ⟨rfl, rfl, rfl, by decide⟩⟩
  · rw [retrofitted_after hafter hsaved, List.mem_singleton] at hf
    subst hf
    cases hmodified

/-- All searches of the run find something. -/
theorem ends_sample {r : RunState} (hr : Reachable sampleOptions (sampleDisk fileBefore.text) r) :
    r.Ends sampleOptions := by
  obtain ⟨file, hfile, hsnapshot⟩ : ∃ file ∈ [fileBefore, fileAfter],
      r.snapshot = sampleSnapshot file := by
    rcases reachable_sample hr with rfl | hafter
    · exact ⟨fileBefore, List.mem_cons_self .., rfl⟩
    · exact ⟨fileAfter, List.mem_cons_of_mem _ (List.mem_singleton_self _), hafter⟩
  intro position _ f hf d hd hkind _ i hi _
  have hnames : ∀ file ∈ [fileBefore, fileAfter], ∀ d ∈ file.types, d.kind = .plainClass →
      file.qualify d.name = "C" := by
    decide
  have hcatalog : (r.catalog sampleOptions).entries = [wantsF] := by
    rw [RunState.catalog, hsnapshot]
    exact congrArg Catalog.entries (catalog_sample hfile)
  rw [hsnapshot] at hf ⊢
  obtain rfl : f = file := List.mem_singleton.mp (List.mem_of_getElem? hf)
  rw [hcatalog, List.mem_singleton] at hi
  obtain ⟨b, hb⟩ := Option.isSome_iff_exists.mp (facts_sample.1 f hfile).2.2.1
  rw [hi, hnames f hfile d hd hkind, Store.matchClass_eq_some.mp hb]
  intro h
  cases h

/-- A run in which `C` gets `I` converges. -/
theorem sample_converges : sampleOptions.maxPasses = none
    ∧ (sampleDisk fileBefore.text).Proper
    ∧ sampleOptions.SourcesApart
    ∧ Rereads sampleOptions (sampleDisk fileBefore.text)
    ∧ (∃ r, Reachable sampleOptions (sampleDisk fileBefore.text) r ∧ r.number = 2)
    ∧ Converges sampleOptions (sampleDisk fileBefore.text)
    ∧ (sampleOptions.run? (sampleDisk fileBefore.text)).isSome := by
  have hproper : (sampleDisk fileBefore.text).Proper := proper_sampleDisk _
  have hapart : sampleOptions.SourcesApart := sourcesApart_sample
  have hsecond : ∃ r, Reachable sampleOptions (sampleDisk fileBefore.text) r ∧ r.number = 2 := by
    obtain ⟨p, summary, hpass, hdisk, hadditions, hresult⟩ := outcome_before
    have hload : Snapshot.load p.disk sampleOptions = .ok (sampleSnapshot fileAfter) := by
      rw [hdisk]
      exact load_sample parse?_after
    refine ⟨_, .tail (.start (load_sample parse?_before)) (.pass hpass ?_ hresult hload), rfl⟩
    exact hadditions ▸ List.cons_ne_nil _ _
  have hconverges := run_converges rfl hproper hapart rereads_sample
  exact ⟨rfl, hproper, hapart, rereads_sample, hsecond, hconverges,
    hconverges.returns fun r hr => ends_sample hr⟩

/-! ## A run that never ends -/

/-- An `N` of something that a `C` is, as it is written and as it is meant. -/
def writtenAboveC : WrittenType := .named "N" [.wildcardSuper (.named "C" [])]
def meantAboveC : JavaType := .classType "N" [.wildcardSuper (.raw "C")]

def methodOf (name : String) (returnType : WrittenType) (isAbstract : Bool) : WrittenMethod where
  name := name
  typeParams := []
  params := []
  returnType := returnType
  isStatic := false
  isPrivate := false
  isAbstract := isAbstract
  isDefault := false

def classK : Declaration :=
  { classC [] [] ⟨103, false⟩ with name := "K", methods := [methodOf "get" (.named "C" []) false] }

/-- A class `C` below `N<N<? super C>>`, and a class `K` with a method that gives a `C` where `I`
wants an `N<? super C>`. The other method that `I` wants it has not. -/
def endlessFile : SourceFile where
  path := "/p/A.java"
  text := "interface I\x7bN<? super C> get();void none();\x7dinterface N<Z>\x7b\x7d"
    ++ "class C implements N<N<? super C>>\x7b\x7dclass K\x7bC get()\x7breturn null;\x7d\x7d"
  package? := none
  imports := []
  types := [
    { interfaceI with methods := [methodOf "get" writtenAboveC true, methodOf "none" .void true] },
    { interfaceI with name := "N", typeParams := [⟨"Z", []⟩], methods := [], anchor := ⟨58, false⟩ },
    { classC [.named "N" [writtenAboveC]] [] ⟨94, true⟩ with methods := [] },
    classK]

theorem parse?_endless : SourceFile.parse? "/p/A.java" endlessFile.text = some endlessFile := by
  decide +kernel

/-- What a class has to provide for `I`. -/
def wantsAboveC : InterfaceDescriptor where
  name := "I"
  typeParams := []
  methods := [⟨"get", meantAboveC, []⟩, ⟨"none", .void, []⟩]
  origin := .source "/p/A.java"

/-- What is known of `I`, of `K` and of `C`. -/
theorem facts_endless :
    (sampleSnapshot endlessFile).store.find? "I" = some
      { name := "I", kind := .interface
        methods := [{ name := "get", params := [], returnType := meantAboveC, isAbstract := true },
          { name := "none", params := [], returnType := .void, isAbstract := true }] }
    ∧ (sampleSnapshot endlessFile).store.contains "K" = true
    ∧ ((sampleSnapshot endlessFile).store.candidates "K").toOption.map
        (·.filter (Store.WantedMethod.isNamedLike ⟨"get", meantAboveC, []⟩))
      = some [{ name := "get", params := [], returnType := .raw "C" }]
    ∧ ((sampleSnapshot endlessFile).store.supertypes (.raw "C")).find? (·.className? = some "N")
      = some (.classType "N" [meantAboveC])
    ∧ ("I", .source "/p/A.java") ∈
      keepFirst (fun a b => a.1 = b.1) ((sampleSnapshot endlessFile).interfaceNames []) := by
  decide +kernel

/-- Whether the `C` of `K` is an `N<? super C>` is never found out. -/
theorem search_endless : (sampleSnapshot endlessFile).store.search "K" wantsAboveC = .endless := by
  obtain ⟨-, -, hcandidates, hfound, -⟩ := facts_endless
  have hview := Store.supertypeView_eq_some.mpr hfound
  generalize (sampleSnapshot endlessFile).store = store at *
  have hself : store.assignable meantAboveC (.raw "C") = none :=
    Store.assignable_eq_none_of_asks_self
      (.argument (by decide) (by decide) hview (by simp) (by simp) rfl (.here rfl))
  obtain ⟨offered, hoffered, hget⟩ := Option.map_eq_some_iff.mp hcandidates
  refine Store.search_eq_endless rfl rfl (toOption_eq_some_iff.mp hoffered) hget ?_
  rw [Store.accept, Store.fitResult, if_neg (by decide), Store.fit_nil_eq_endless hself,
    Search.andThen_endless]

theorem mem_catalog_endless : wantsAboveC ∈ ((sampleSnapshot endlessFile).catalog []).entries := by
  have hdescribe : (sampleSnapshot endlessFile).store.describe "I" (.source "/p/A.java")
      = some wantsAboveC := by
    rw [Store.describe_alone facts_endless.1 rfl rfl]
    rfl
  exact List.mem_mergeSort.mpr
    (List.mem_filterMap.mpr ⟨_, facts_endless.2.2.2.2, hdescribe⟩)

/-- The state before the first pass. -/
def stateEndless : RunState := ⟨1, sampleDisk endlessFile.text, sampleSnapshot endlessFile, []⟩

/-- The first pass does not come to its end. -/
theorem outcome_endless : stateEndless.outcome? sampleOptions = none := by
  rw [← Option.not_isSome_iff_eq_none, isSome_outcome?_iff]
  intro hends
  exact hends 0 (List.mem_singleton_self _) endlessFile rfl classK (by simp [endlessFile]) rfl
    facts_endless.2.1 wantsAboveC mem_catalog_endless (by decide) search_endless

/-- So there is nothing to be read again. -/
theorem rereads_endless : Rereads sampleOptions (sampleDisk endlessFile.text) := by
  have honly : ∀ r, Reachable sampleOptions (sampleDisk endlessFile.text) r → r = stateEndless := by
    intro r hr
    induction hr with
    | start hload =>
      rw [load_sample parse?_endless, Except.ok.injEq] at hload
      rw [← hload]
      rfl
    | tail _ hs ih =>
      subst ih
      cases hs with
      | pass hpass =>
        rw [outcome_endless] at hpass
        cases hpass
  intro r hr saved hsaved
  obtain rfl := honly r hr
  have hsome := outcome?_eq_some.mpr ⟨saved, hsaved, rfl⟩
  rw [outcome_endless] at hsome
  cases hsome

/-- **A run need not come to its end.** Its first pass does not, for a class and an interface that
the search for never ends. -/
theorem endless_run : sampleOptions.maxPasses = none
    ∧ (sampleDisk endlessFile.text).Proper
    ∧ sampleOptions.SourcesApart
    ∧ Rereads sampleOptions (sampleDisk endlessFile.text)
    ∧ Snapshot.load (sampleDisk endlessFile.text) sampleOptions = .ok (sampleSnapshot endlessFile)
    ∧ sampleOptions.run? (sampleDisk endlessFile.text) = none := by
  have hload := load_sample parse?_endless
  refine ⟨rfl, proper_sampleDisk _, sourcesApart_sample, rereads_endless, hload, ?_⟩
  have hsource : (!sampleOptions.hasInterfaceSource) = false := rfl
  have hlimit : ¬ sampleOptions.passLimit (sampleSnapshot endlessFile)
      ((sampleSnapshot endlessFile).catalog sampleOptions.packages) < 1 :=
    Nat.not_lt.mpr (Nat.le_add_left ..)
  rw [run?, if_neg (by rw [hsource]; exact Bool.false_ne_true), hload]
  dsimp only
  rw [passesFrom?]
  dsimp only
  rw [if_neg hlimit]
  change (stateEndless.outcome? sampleOptions).bind _ = none
  rw [outcome_endless, Option.bind_none]

end Options

end Conformance
