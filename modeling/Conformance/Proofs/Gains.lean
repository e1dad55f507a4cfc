import Conformance.Project.Run
import Conformance.Proofs.Naming

/-!
# What a pass adds, and what the next one finds

A declaration is told apart from others by its position in a file and the position of the file
in the snapshot; two declarations may well have the same name. A `Gain` says which declaration
got which interface. Within a pass no gain occurs twice (`nodup_gains`), and all of them lie in
a finite set that depends on the outline of the snapshot only (`mem_offers_of_gain`).

The snapshot after a pass has the same outline (`load_after_pass`), each list of interfaces has
what was added to it at its end (`declaration_after_pass`), and it names all that it named
before and all that was added (`names_after_pass`).
-/

namespace Conformance

open Java

/-- A declaration got an interface. -/
structure Gain where
  /-- The position of the file in the snapshot. -/
  file : Nat
  /-- The position of the declaration in the file. -/
  position : Nat
  interface : String
  deriving DecidableEq

namespace Snapshot

variable {s s' : Snapshot} {catalog : Catalog} {number : Nat}

/-! ## One pass -/

/-- The declaration at a position of a file. -/
def declaration? (s : Snapshot) (file position : Nat) : Option Declaration :=
  s.files[file]?.bind fun f => f.types[position]?

/-- What a declaration gets in a pass that comes to the end of it. -/
def additionsTo (s : Snapshot) (catalog : Catalog) (number : Nat) (f : SourceFile)
    (d : Declaration) : List Addition :=
  ((Retrofit.declaration? s.store catalog number f d).map (·.2)).getD []

/-- What the declarations of a snapshot get in a pass. -/
def gains (s : Snapshot) (catalog : Catalog) (number : Nat) : List Gain :=
  s.files.zipIdx.flatMap fun (f, file) =>
    if s.project.contains file then
      f.types.zipIdx.flatMap fun (d, position) =>
        (s.additionsTo catalog number f d).map fun a => ⟨file, position, a.interface⟩
    else []

theorem additionsTo_eq {f : SourceFile} {d : Declaration} {result : Declaration × List Addition}
    (h : Retrofit.declaration? s.store catalog number f d = some result) :
    s.additionsTo catalog number f d = result.2 := by
  rw [additionsTo, h]
  rfl

/-- What a declaration gets is what some pass over it comes to. -/
theorem exists_extended (s : Snapshot) (catalog : Catalog) (number : Nat) (f : SourceFile)
    (d : Declaration) : ∃ e,
      Retrofit.Extended s.store catalog f d e (s.additionsTo catalog number f d) := by
  cases h : Retrofit.declaration? s.store catalog number f d with
  | none =>
    rw [additionsTo, h]
    exact ⟨d, Retrofit.extended_refl ..⟩
  | some result =>
    rw [additionsTo_eq h]
    exact ⟨result.1, Retrofit.extended_of_declaration? h⟩

/-- What a pass makes of the files of a snapshot. -/
theorem retrofitted?_eq_some {r : List SourceFile × List Addition} :
    s.retrofitted? catalog number = some r ↔ ∃ results,
      List.Forall₂ (fun (e : SourceFile × Nat) result =>
        (if s.project.contains e.2 then Retrofit.file? s.store catalog number e.1
          else some (e.1, [])) = some result) s.files.zipIdx results
        ∧ r = (results.map (·.1), results.flatMap (·.2)) := by
  unfold retrofitted?
  simp only [Option.bind_eq_bind, Option.bind_eq_some_iff, mapM_eq_some_iff, Option.pure_def,
    Option.some.injEq, eq_comm (a := r)]

/-- Each addition of a pass is a gain of one declaration. -/
theorem gains_interface {r : List SourceFile × List Addition}
    (h : s.retrofitted? catalog number = some r) :
    (s.gains catalog number).map Gain.interface = r.2.map Addition.interface := by
  have hfile : ∀ (f : SourceFile) (file : Nat) (result : SourceFile × List Addition),
      Retrofit.file? s.store catalog number f = some result →
      (f.types.zipIdx.flatMap fun (d, position) =>
        (s.additionsTo catalog number f d).map fun a =>
          (⟨file, position, a.interface⟩ : Gain)).map Gain.interface
        = result.2.map Addition.interface := by
    intro f file result hresult
    obtain ⟨results, hresults, rfl⟩ := Retrofit.file?_eq_some.mp hresult
    have hadditions : results.flatMap (·.2) = f.types.flatMap (s.additionsTo catalog number f) :=
      flatMap_eq_of_forall₂ hresults fun d result hd => (additionsTo_eq hd).symm
    dsimp only
    rw [hadditions]
    conv => rhs; rw [← List.zipIdx_map_fst 0 f.types]
    rw [List.map_flatMap, List.flatMap_map, List.map_flatMap]
    simp only [List.map_map]
    rfl
  obtain ⟨results, hresults, rfl⟩ := retrofitted?_eq_some.mp h
  unfold gains
  dsimp only
  rw [List.map_flatMap, List.map_flatMap]
  refine (flatMap_eq_of_forall₂ hresults ?_).symm
  rintro ⟨f, file⟩ result hresult
  dsimp only at hresult ⊢
  split at hresult
  · next hproject =>
    rw [if_pos hproject]
    exact (hfile f file result hresult).symm
  · next hproject =>
    rw [if_neg hproject]
    cases hresult
    rfl

theorem mem_gains_iff {g : Gain} : g ∈ s.gains catalog number ↔
    ∃ f d, s.files[g.file]? = some f ∧ g.file ∈ s.project ∧ f.types[g.position]? = some d
      ∧ ∃ a ∈ s.additionsTo catalog number f d, a.interface = g.interface := by
  unfold gains
  constructor
  · intro h
    obtain ⟨⟨f, file⟩, hf, h⟩ := List.mem_flatMap.mp h
    dsimp only at h
    split at h
    · next hproject =>
      obtain ⟨⟨d, position⟩, hd, h⟩ := List.mem_flatMap.mp h
      obtain ⟨a, ha, rfl⟩ := List.mem_map.mp h
      exact ⟨f, d, List.mem_zipIdx_iff_getElem?.mp hf, List.contains_iff_mem.mp hproject,
        List.mem_zipIdx_iff_getElem?.mp hd, a, ha, rfl⟩
    · cases h
  · rintro ⟨f, d, hf, hproject, hd, a, ha, hname⟩
    refine List.mem_flatMap.mpr ⟨(f, g.file), List.mem_zipIdx_iff_getElem?.mpr hf, ?_⟩
    dsimp only
    rw [if_pos (List.contains_iff_mem.mpr hproject)]
    refine List.mem_flatMap.mpr ⟨(d, g.position), List.mem_zipIdx_iff_getElem?.mpr hd, ?_⟩
    refine List.mem_map.mpr ⟨a, ha, ?_⟩
    rw [hname]

/-- **No declaration gets an interface twice in a pass.** -/
theorem nodup_gains (s : Snapshot) (catalog : Catalog) (number : Nat) :
    (s.gains catalog number).Nodup := by
  unfold gains
  refine nodup_flatMap_zipIdx Gain.file ?_ ?_
  · rintro ⟨f, file⟩ - g hg
    dsimp only at hg
    split at hg
    · obtain ⟨⟨d, position⟩, -, hg⟩ := List.mem_flatMap.mp hg
      obtain ⟨a, -, rfl⟩ := List.mem_map.mp hg
      rfl
    · cases hg
  · rintro ⟨f, file⟩ -
    dsimp only
    split
    · refine nodup_flatMap_zipIdx Gain.position ?_ ?_
      · rintro ⟨d, position⟩ - g hg
        obtain ⟨a, -, rfl⟩ := List.mem_map.mp hg
        rfl
      · rintro ⟨d, position⟩ -
        obtain ⟨e, hext⟩ := s.exists_extended catalog number f d
        refine List.Nodup.of_map Gain.interface ?_
        rw [List.map_map]
        exact hext.distinct
    · exact List.nodup_nil

/-! ## What there is to gain -/

/-- The positions of the classes that can get interfaces. -/
def targetPlaces (s : Snapshot) : List (Nat × Nat) :=
  s.project.flatMap fun file =>
    match s.files[file]? with
    | none => []
    | some f =>
      ((f.types.map (·.kind)).zipIdx.filter (·.1 = .plainClass)).map fun e => (file, e.2)

theorem length_targetPlaces (s : Snapshot) : s.targetPlaces.length = s.targets.length := by
  have hfile : ∀ (f : SourceFile) (file : Nat),
      (((f.types.map (·.kind)).zipIdx.filter (·.1 = .plainClass)).map fun e => (file, e.2)).length
        = ((f.types.filter (·.kind = .plainClass)).map fun d => f.qualify d.name).length := by
    intro f file
    have hkinds : (f.types.map (·.kind)).filter (· = .plainClass)
        = ((f.types.map (·.kind)).zipIdx.filter (·.1 = .plainClass)).map Prod.fst := by
      conv => lhs; rw [← List.zipIdx_map_fst 0 (f.types.map (·.kind))]
      rw [List.filter_map]
      rfl
    rw [List.length_map, List.length_map, ← List.length_map (f := Prod.fst), ← hkinds,
      List.filter_map, List.length_map]
    rfl
  unfold targetPlaces targets filesAt
  induction s.project with
  | nil => rfl
  | cons file project ih =>
    rw [List.flatMap_cons, List.length_append, ih]
    cases hf : s.files[file]? with
    | none => rw [List.filterMap_cons_none hf, List.length_nil, Nat.zero_add]
    | some f =>
      rw [List.filterMap_cons_some hf, List.flatMap_cons, List.length_append]
      exact congrArg (· + _) (hfile f file)

/-- All gains that the classes of a project may come to. -/
def offers (s : Snapshot) (packages : List String) : List Gain :=
  s.targetPlaces.flatMap fun place =>
    (s.interfaceKeys packages).map fun name => ⟨place.1, place.2, name⟩

theorem length_offers (s : Snapshot) (packages : List String) :
    (s.offers packages).length = s.targets.length * (s.catalog packages).size := by
  have hkeys : (s.interfaceKeys packages).length = (s.catalog packages).size := by
    rw [← (s.catalog_names packages).length_eq, List.length_map, Catalog.size]
  unfold offers
  rw [List.length_flatMap, ← length_targetPlaces, ← hkeys]
  simp only [List.length_map, List.map_const', List.sum_replicate_nat]

theorem mem_offers_of_gain {packages : List String} {g : Gain}
    (h : g ∈ s.gains (s.catalog packages) number) : g ∈ s.offers packages := by
  obtain ⟨f, d, hf, hproject, hd, a, ha, hname⟩ := mem_gains_iff.mp h
  obtain ⟨e, hext⟩ := s.exists_extended (s.catalog packages) number f d
  refine List.mem_flatMap.mpr ⟨(g.file, g.position), ?_, List.mem_map.mpr ⟨g.interface, ?_, rfl⟩⟩
  · refine List.mem_flatMap.mpr ⟨g.file, hproject, ?_⟩
    rw [hf]
    refine List.mem_map.mpr ⟨(d.kind, g.position), List.mem_filter.mpr ⟨?_, ?_⟩, rfl⟩
    · rw [List.mem_zipIdx_iff_getElem?, List.getElem?_map, hd]
      rfl
    · rw [decide_eq_true_iff]
      exact hext.kind a ha
  · rw [← hname]
    exact (s.catalog_names packages).mem_iff.mp (hext.offered a ha)

/-- What there is to gain depends on outlines only. -/
theorem offers_eq (h : SameOutline s s') (packages : List String) :
    s'.offers packages = s.offers packages := by
  have hplaces : s'.targetPlaces = s.targetPlaces := by
    unfold targetPlaces
    rw [h.project]
    refine List.flatMap_congr fun file _ => ?_
    cases hf : s.files[file]? with
    | none =>
      have hf' : s'.files[file]? = none := by
        rw [List.getElem?_eq_none_iff] at hf ⊢
        rw [← h.files.length_eq]
        exact hf
      rw [hf']
    | some f =>
      obtain ⟨f', hf', hff'⟩ := exists_right_of_getElem? h.files hf
      have hkinds : f'.types.map (·.kind) = f.types.map (·.kind) :=
        hff'.map_types fun d e hde => Declaration.kind_of_outline hde
      rw [hf']
      dsimp only
      rw [hkinds]
  unfold offers
  rw [hplaces, interfaceKeys_eq h]

/-! ## The snapshot after a pass -/

section Retrofitted

variable {r : List SourceFile × List Addition} (hr : s.retrofitted? catalog number = some r)
include hr

/-- A file of the project has become what comes of it, and the others are as they were. -/
theorem getElem?_retrofitted {file : Nat} {f : SourceFile} (hf : s.files[file]? = some f) :
    ∃ g, r.1[file]? = some g
      ∧ if s.project.contains file then
          ∃ additions, Retrofit.file? s.store catalog number f = some (g, additions)
        else g = f := by
  obtain ⟨results, hresults, rfl⟩ := retrofitted?_eq_some.mp hr
  have hplace : s.files.zipIdx[file]? = some (f, file) := by
    rw [List.getElem?_zipIdx, hf, Option.map_some, Nat.zero_add]
  obtain ⟨result, hresult, hcomes⟩ := exists_right_of_getElem? hresults hplace
  refine ⟨result.1, by rw [List.getElem?_map, hresult, Option.map_some], ?_⟩
  dsimp only at hcomes
  split
  · next hproject => exact ⟨result.2, by rwa [if_pos hproject] at hcomes⟩
  · next hproject =>
    rw [if_neg hproject, Option.some.injEq] at hcomes
    rw [← hcomes]

/-- A pass leaves outlines as they are, and a file that it leaves alone in every respect. -/
theorem forall₂_retrofitted :
    List.Forall₂ (fun f g => f.SameOutline g ∧ (g.isModified = false → g = f)) s.files r.1 := by
  obtain ⟨results, hresults, rfl⟩ := retrofitted?_eq_some.mp hr
  have hfiles : s.files.zipIdx.map Prod.fst = s.files := List.zipIdx_map_fst 0 s.files
  conv => lhs; rw [← hfiles]
  rw [List.forall₂_map_left_iff, List.forall₂_map_right_iff]
  refine hresults.imp ?_
  rintro ⟨f, file⟩ result hresult
  dsimp only at hresult ⊢
  split at hresult
  · exact ⟨Retrofit.sameOutline_of_file? hresult, Retrofit.eq_of_not_isModified hresult⟩
  · cases hresult
    exact ⟨(SourceFile.SaysSame.refl f).sameOutline, fun _ => rfl⟩

/-- A pass without gains leaves the files as they are. -/
theorem retrofitted_of_no_gains (h : s.gains catalog number = []) : r = (s.files, []) := by
  have hadditions : r.2 = [] := by
    have := gains_interface hr
    rw [h, List.map_nil] at this
    exact List.map_eq_nil_iff.mp this.symm
  have hlength : r.1.length = s.files.length := (forall₂_retrofitted hr).length_eq.symm
  refine Prod.ext (List.ext_getElem? fun file => ?_) hadditions
  cases hf : s.files[file]? with
  | none =>
    rw [List.getElem?_eq_none_iff] at hf ⊢
    rwa [hlength]
  | some f =>
    obtain ⟨g, hg, hcomes⟩ := getElem?_retrofitted hr hf
    rw [hg, Option.some.injEq]
    split at hcomes
    · next hproject =>
      obtain ⟨additions, hfile⟩ := hcomes
      refine Retrofit.eq_of_no_additions hfile fun d hd result hresult => ?_
      obtain ⟨position, hposition⟩ := List.mem_iff_getElem?.mp hd
      rw [List.eq_nil_iff_forall_not_mem]
      intro a ha
      rw [← additionsTo_eq hresult] at ha
      have hgain : (⟨file, position, a.interface⟩ : Gain) ∈ s.gains catalog number :=
        mem_gains_iff.mpr ⟨f, d, hf, List.contains_iff_mem.mp hproject, hposition, a, ha, rfl⟩
      rw [h] at hgain
      cases hgain
    · exact hcomes

end Retrofitted

/-- Whether the declaration of a gain names the interface. -/
def Names (s : Snapshot) (g : Gain) : Prop :=
  ∃ f d, s.files[g.file]? = some f ∧ f.types[g.position]? = some d
    ∧ Retrofit.names s.store f d g.interface = true

/-- What a declaration gets it did not name before. -/
theorem not_names_of_gain {g : Gain} (h : g ∈ s.gains catalog number) : ¬ s.Names g := by
  rintro ⟨f, d, hf, hd, hnames⟩
  obtain ⟨f', d', hf', -, hd', a, ha, hname⟩ := mem_gains_iff.mp h
  rw [hf, Option.some.injEq] at hf'
  subst hf'
  rw [hd, Option.some.injEq] at hd'
  subst hd'
  obtain ⟨e, hext⟩ := s.exists_extended catalog number f d
  rw [← hname, hext.fresh a ha] at hnames
  cases hnames

section NextSnapshot

variable {o : Options} {disk disk' : Disk} {w : List SourceFile × Nat}
  {r : List SourceFile × List Addition} (hr : s.retrofitted? catalog number = some r)
include hr

/-- **The snapshot after a pass.** It has the same outline, and its files say what the files of
the pass say. -/
theorem load_after_pass (hproper : disk.Proper)
    (harchives : ∀ path, .archive path ∈ o.classpath → Disk.isSource path = false)
    (hload : load disk o = .ok s)
    (hrereads : ∀ f ∈ r.1, f.isModified = true → f.Rereads)
    (hsave : disk.save r.1 = (disk', .ok w)) (hload' : load disk' o = .ok s') :
    disk'.Proper ∧ SameOutline s s' ∧ List.Forall₂ SourceFile.SaysSame r.1 s'.files := by
  obtain ⟨hholds, hplaces⟩ := load_files hproper hload
  have hpass := forall₂_retrofitted hr
  generalize r.1 = files at *
  have hfrom : ∀ g ∈ files, ∃ f ∈ s.files, g.path = f.path ∧ (g.isModified = false → g = f) := by
    intro g hg
    obtain ⟨f, hf, hfg, hsame⟩ := exists_left_of_mem hpass hg
    exact ⟨f, hf, hfg.path, hsame⟩
  -- the pass keeps paths, so the files are still at different places
  have hplaces' : (files.map fun f => disk.placeOf f.path).Nodup := by
    rw [map_eq_of_forall₂ (f := fun f => disk.placeOf f.path) hpass
      fun _ _ hfg => by rw [hfg.1.path]]
    exact hplaces
  obtain ⟨hproper', hshape, hread, hothers, hsaved⟩ := Disk.save_spec hproper hplaces'
    (fun g hg => by
      obtain ⟨f, hf, hpath, -⟩ := hfrom g hg
      rw [hpath]
      exact (hholds f hf).2)
    (fun g hg => by
      obtain ⟨f, hf, hpath, -⟩ := hfrom g hg
      rw [hpath, (hholds f hf).1]
      rfl)
    (fun g hg hunmodified => by
      obtain ⟨f, hf, -, hsame⟩ := hfrom g hg
      rw [hsame hunmodified]
      exact (hholds f hf).1)
    hrereads hsave
  -- the second snapshot reads what was saved
  obtain ⟨hindex, hproject, hinterfaces, hfiles⟩ :=
    load_congr hproper hproper' hshape hread harchives hothers hload hload'
  have hsaid : List.Forall₂ SourceFile.SaysSame files s'.files := by
    have hpaths : List.Forall₂ (fun g f => (∃ k, disk'.fileAt? g.path = some k ∧ g.SaysSame k)
        ∧ g.path = f.path) files s.files :=
      (List.forall₂_and_left ..).mpr ⟨hsaved, (hpass.imp fun _ _ hfg => hfg.1.path).flip⟩
    refine forall₂_trans ?_ hpaths hfiles
    rintro g f f' ⟨⟨k, hk, hsaid⟩, hpath⟩ hf'
    rw [hpath, hf', Option.some.injEq] at hk
    rw [hk]
    exact hsaid
  have houtline : List.Forall₂ SourceFile.SameOutline s.files s'.files :=
    forall₂_trans (fun _ _ _ hfg hgk => hfg.1.trans hgk.sameOutline) hpass hsaid
  refine ⟨hproper', ⟨hindex, hproject, hinterfaces, houtline, ?_⟩, hsaid⟩
  obtain ⟨-, -, -, -, -, hstore⟩ := load_spec hproper hload
  obtain ⟨-, -, -, -, -, hstore'⟩ := load_spec hproper' hload'
  rw [hstore, hstore', hindex]
  exact kind_storeOf s.index houtline

variable (hsaid : List.Forall₂ SourceFile.SaysSame r.1 s'.files)

include hsaid

/-- **What a pass added is at the end of the list.** -/
theorem declaration_after_pass {file position : Nat} {f : SourceFile} {d : Declaration}
    (hf : s.files[file]? = some f) (hd : f.types[position]? = some d) :
    ∃ f' d', s'.files[file]? = some f' ∧ f'.types[position]? = some d' ∧ f.SameOutline f'
      ∧ d'.outline = d.outline
      ∧ d'.interfaces = d.interfaces ++ if s.project.contains file then
          (s.additionsTo catalog number f d).map (·.clause) else [] := by
  obtain ⟨g, hg, hcomes⟩ := getElem?_retrofitted hr hf
  obtain ⟨f', hf', hsame⟩ := exists_right_of_getElem? hsaid hg
  -- the declaration as the pass leaves it
  obtain ⟨hfg, e, he, houtline, hlist⟩ : f.SameOutline g ∧ ∃ e, g.types[position]? = some e
      ∧ e.outline = d.outline
      ∧ e.interfaces = d.interfaces ++ if s.project.contains file then
          (s.additionsTo catalog number f d).map (·.clause) else [] := by
    split at hcomes
    · next hproject =>
      obtain ⟨additions, hfile⟩ := hcomes
      obtain ⟨e, he, more, hde⟩ := exists_right_of_getElem? (Retrofit.types_of_file? hfile) hd
      have hext := Retrofit.extended_of_declaration? hde
      rw [if_pos hproject, additionsTo_eq hde]
      exact ⟨Retrofit.sameOutline_of_file? hfile, e, he, hext.outline, hext.interfaces⟩
    · -- a file that is not of the project is not changed
      next hproject =>
      rw [if_neg hproject, List.append_nil, hcomes]
      exact ⟨(SourceFile.SaysSame.refl f).sameOutline, d, hd, rfl, rfl⟩
  obtain ⟨d', hd', hsettled⟩ := exists_right_of_getElem? (forall₂_of_map_eq hsame.types) he
  refine ⟨f', d', hf', hd', hfg.trans hsame.sameOutline, ?_, ?_⟩
  · rw [Declaration.outline_of_settled hsettled, houtline]
  · rw [Declaration.interfaces_of_settled hsettled, hlist]

/-- After a pass a declaration names what it named before and what it got. -/
theorem names_after_pass (hkinds : Store.SameKinds s.store s'.store) {g : Gain}
    (h : s.Names g ∨ g ∈ s.gains catalog number) : s'.Names g := by
  rcases h with ⟨f, d, hf, hd, hnames⟩ | hg
  · obtain ⟨f', d', hf', hd', houtline, hdoutline, hlist⟩ := declaration_after_pass hr hsaid hf hd
    refine ⟨f', d', hf', hd', ?_⟩
    rw [Retrofit.names_congr houtline hkinds (Declaration.typeParams_of_outline hdoutline), hlist,
      Scope.namesType_append, Bool.or_eq_true]
    exact .inl hnames
  · obtain ⟨f, d, hf, hproject, hd, a, ha, hname⟩ := mem_gains_iff.mp hg
    obtain ⟨e, hext⟩ := s.exists_extended catalog number f d
    obtain ⟨f', d', hf', hd', houtline, hdoutline, hlist⟩ := declaration_after_pass hr hsaid hf hd
    refine ⟨f', d', hf', hd', ?_⟩
    rw [if_pos (List.contains_iff_mem.mpr hproject), ← hext.interfaces] at hlist
    have hnamed := hext.named a ha
    rw [Retrofit.names_congr (SourceFile.SaysSame.refl f).sameOutline (fun _ => rfl)
      (Declaration.typeParams_of_outline hext.outline)] at hnamed
    rw [Retrofit.names_congr houtline hkinds (Declaration.typeParams_of_outline hdoutline), hlist,
      ← hname]
    exact hnamed

end NextSnapshot

end Snapshot

end Conformance
