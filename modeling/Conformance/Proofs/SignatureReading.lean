import Mathlib.Data.List.TakeDrop
import Mathlib.Data.List.TakeWhile
import Conformance.Proofs.Path
import Conformance.Proofs.SignatureWriting

/-!
# How signatures are read

A reader takes exactly the texts off an input that spell what it gives back. Both directions are
needed, and each reader gets a lemma for either: what it gives back is spelled by what it took
(`…_sound`), and what spells something is taken off whatever follows (`…_complete`), as far as the
reader can tell where it ends. Most pieces end with a character of their own. A name does not, so a
segment is read whole only in front of what stops a name, and a type parameter not in front of a
colon.
-/

namespace Conformance.ClassFile

/-! ## Characters and names -/

theorem takeChar?_eq_some {c : Char} {text rest : List Char} :
    takeChar? c text = some rest ↔ text = c :: rest := by
  cases text with
  | nil => simp [takeChar?]
  | cons d text =>
    rw [takeChar?, List.cons.injEq]
    by_cases h : d = c
    · simp [h]
    · simp [h]

theorem takeChar?_eq_none {c : Char} {text : List Char} :
    takeChar? c text = none ↔ text.head? ≠ some c := by
  cases text with
  | nil => simp [takeChar?]
  | cons d text => simp [takeChar?]

theorem takeIdentifier?_sound {stops text rest : List Char} {name : String}
    (h : takeIdentifier? stops text = some (name, rest)) :
    text = name.toList ++ rest ∧ IsName stops name.toList := by
  unfold takeIdentifier? at h
  rw [List.span_eq_takeWhile_dropWhile] at h
  split at h
  · cases h
  · next taken rest' hnil hspan =>
    obtain ⟨rfl, rfl⟩ := Prod.mk.inj hspan
    obtain ⟨rfl, rfl⟩ := Prod.mk.inj (Option.some.inj h)
    rw [String.toList_ofList]
    refine ⟨List.takeWhile_append_dropWhile.symm, ⟨hnil, fun c hc => ?_⟩⟩
    simpa using List.mem_takeWhile_imp hc

theorem takeIdentifier?_complete {stops : List Char} {name : String} {c : Char} (rest : List Char)
    (h : IsName stops name.toList) (hc : c ∈ stops) :
    takeIdentifier? stops (name.toList ++ c :: rest) = some (name, c :: rest) := by
  have hall : ∀ d ∈ name.toList, (!stops.contains d) = true := by
    simpa using h.unbroken
  have hspan : (name.toList ++ c :: rest).span (fun d => !stops.contains d)
      = (name.toList, c :: rest) := by
    rw [List.span_eq_takeWhile_dropWhile, List.takeWhile_append_of_pos hall,
      List.dropWhile_append_of_pos hall]
    simp [hc]
  unfold takeIdentifier?
  rw [hspan]
  split
  · next hnil => exact absurd (Prod.mk.inj hnil).1 h.nonempty
  · next hpair =>
    obtain ⟨rfl, rfl⟩ := Prod.mk.inj hpair
    rw [String.ofList_toList]

/-- Separators stand behind all parts but the last as well as in front of all but the first. -/
theorem flatMap_separators {sep : Char} (first last : List Char) (parts : List (List Char)) :
    first ++ (parts ++ [last]).flatMap (sep :: ·)
      = (first :: parts).flatMap (· ++ [sep]) ++ last := by
  induction parts generalizing first with
  | nil => simp
  | cons part parts ih =>
    rw [List.cons_append, List.flatMap_cons, List.cons_append, ih, List.flatMap_cons]
    simp

/-- The parts of a text, each but the last with the separator behind it, are the text. -/
theorem eq_of_splitOnChar_concat {sep : Char} {text last : List Char} {parts : List (List Char)}
    (h : Text.splitOnChar sep text = parts ++ [last]) :
    text = parts.flatMap (· ++ [sep]) ++ last := by
  cases parts with
  | nil => simpa using Text.eq_of_splitOnChar h
  | cons first parts => exact (Text.eq_of_splitOnChar h).trans (flatMap_separators first last parts)

/-- A qualified name is taken apart into its package and its last part ... -/
theorem splitQualified_sound (qualified : String) {name : String} {package : List String}
    (h : splitQualified qualified = (package, name)) :
    qualified.toList = qualifiedName package name
      ∧ ∀ part ∈ name :: package, '/' ∉ part.toList := by
  rcases List.eq_nil_or_concat (Text.splitOnChar '/' qualified.toList) with hnil | ⟨parts, last, hparts⟩
  · exact absurd hnil (Text.splitOnChar_ne_nil '/' qualified.toList)
  rw [List.concat_eq_append] at hparts
  have hnoSlash : ∀ part ∈ parts ++ [last], '/' ∉ part := fun part hpart =>
    Text.not_mem_of_mem_splitOnChar (hparts ▸ hpart)
  rw [splitQualified, Text.split, hparts, List.map_append, List.map_singleton, List.dropLast_concat,
    List.getLastD_concat, Prod.mk.injEq] at h
  obtain ⟨rfl, rfl⟩ := h
  refine ⟨?_, ?_⟩
  · rw [eq_of_splitOnChar_concat hparts, qualifiedName, List.flatMap_map]
    simp only [String.toList_ofList]
  · simpa [or_imp, forall_and, and_comm] using hnoSlash

/-- ... and any package and last part without slashes are found again. -/
theorem splitQualified_complete {qualified name : String} {package : List String}
    (hqualified : qualified.toList = qualifiedName package name)
    (h : ∀ part ∈ name :: package, '/' ∉ part.toList) :
    splitQualified qualified = (package, name) := by
  have hparts : Text.splitOnChar '/' (qualifiedName package name)
      = package.map String.toList ++ [name.toList] := by
    rw [List.forall_mem_cons] at h
    clear hqualified
    induction package with
    | nil => exact Text.splitOnChar_eq_singleton h.1
    | cons part package ih =>
      rw [List.forall_mem_cons] at h
      have hcons : qualifiedName (part :: package) name
          = part.toList ++ '/' :: qualifiedName package name := by simp [qualifiedName]
      rw [hcons, Text.splitOnChar_append_cons, Text.splitOnChar_eq_singleton h.2.1,
        ih ⟨h.1, h.2.2⟩]
      rfl
  have hmap : (package.map String.toList).map String.ofList = package := by
    simp [Function.comp_def, String.ofList_toList]
  rw [splitQualified, Text.split, hqualified, hparts, List.map_append, hmap, List.map_singleton,
    String.ofList_toList, List.dropLast_concat, List.getLastD_concat]

/-! ## Lists -/

section Lists

variable {α : Type} {W : α → List Char → Prop} {item : List Char → Option (α × List Char)}

/-- What an item reader gives back is spelled by what it took. -/
def Sound (item : List Char → Option (α × List Char)) (W : α → List Char → Prop) : Prop :=
  ∀ text a rest, item text = some (a, rest) → ∃ cs, text = cs ++ rest ∧ W a cs

/-- What spells an item is taken off whatever follows. -/
def Complete (item : List Char → Option (α × List Char)) (W : α → List Char → Prop) : Prop :=
  ∀ a cs rest, W a cs → item (cs ++ rest) = some (a, rest)

theorem takeUntil?_sound {close : Char} (hitem : Sound item W) {fuel : Nat} {text rest : List Char}
    {as : List α} (h : takeUntil? close item fuel text = some (as, rest)) :
    ∃ cs, text = cs ++ close :: rest ∧ Each W as cs := by
  induction fuel generalizing text as with
  | zero =>
    unfold takeUntil? at h
    split at h
    · next hclose =>
      cases h
      exact ⟨[], takeChar?_eq_some.mp hclose, .nil⟩
    · cases h
  | succ fuel ih =>
    unfold takeUntil? at h
    split at h
    · next hclose =>
      cases h
      exact ⟨[], takeChar?_eq_some.mp hclose, .nil⟩
    · obtain ⟨⟨a, rest₁⟩, hfirst, h⟩ := Option.bind_eq_some_iff.mp h
      obtain ⟨⟨others, rest₂⟩, hothers, h⟩ := Option.bind_eq_some_iff.mp h
      cases h
      obtain ⟨cs, rfl, ha⟩ := hitem text a rest₁ hfirst
      obtain ⟨ds, rfl, has⟩ := ih hothers
      exact ⟨cs ++ ds, by simp, .cons ha has⟩

/-- A list is read up to its end if each of its items is in front of those after it. -/
theorem takeUntil?_complete {close : Char} {rest : List Char} {as : List α} {cs : List Char}
    (h : Each W as cs) (hstart : ∀ a cs, W a cs → ∃ c ds, cs = c :: ds ∧ c ≠ close)
    (hitem : ∀ a others cs ds, (a :: others) <:+ as → W a cs → Each W others ds →
      item (cs ++ (ds ++ close :: rest)) = some (a, ds ++ close :: rest))
    {fuel : Nat} (hfuel : cs.length ≤ fuel) :
    takeUntil? close item fuel (cs ++ close :: rest) = some (as, rest) := by
  induction h generalizing fuel with
  | nil => cases fuel <;> simp [takeUntil?, takeChar?]
  | @cons a as cs ds first others ih =>
    obtain ⟨c, cs', rfl, hc⟩ := hstart a cs first
    have hnot : takeChar? close (c :: cs' ++ ds ++ close :: rest) = none :=
      takeChar?_eq_none.mpr (by simpa using hc)
    have htake := hitem a as (c :: cs') ds (List.suffix_refl _) first others
    rw [← List.append_assoc] at htake
    rw [List.length_append, List.length_cons] at hfuel
    cases fuel with
    | zero => omega
    | succ fuel =>
      have hsuffix : ∀ b bs cs ds, (b :: bs) <:+ as → W b cs → Each W bs ds →
          item (cs ++ (ds ++ close :: rest)) = some (b, ds ++ close :: rest) :=
        fun b bs cs ds hbs => hitem b bs cs ds (hbs.trans (List.suffix_cons ..))
      have hlength : ds.length ≤ fuel := by omega
      unfold takeUntil?
      rw [hnot]
      exact Option.bind_eq_some_iff.mpr
        ⟨_, htake, Option.bind_eq_some_iff.mpr ⟨_, ih hsuffix hlength, rfl⟩⟩

theorem takeWhileLed?_sound {lead : Char} (hitem : Sound item W) {fuel : Nat}
    {text rest : List Char} {as : List α}
    (h : takeWhileLed? lead item fuel text = some (as, rest)) :
    ∃ cs, text = cs ++ rest ∧ Each (Led lead W) as cs ∧ rest.head? ≠ some lead := by
  induction fuel generalizing text as with
  | zero =>
    unfold takeWhileLed? at h
    split at h
    · next hlead =>
      cases h
      exact ⟨[], rfl, .nil, takeChar?_eq_none.mp hlead⟩
    · cases h
  | succ fuel ih =>
    unfold takeWhileLed? at h
    split at h
    · next hlead =>
      cases h
      exact ⟨[], rfl, .nil, takeChar?_eq_none.mp hlead⟩
    · next text' hlead =>
      obtain ⟨⟨a, rest₁⟩, hfirst, h⟩ := Option.bind_eq_some_iff.mp h
      obtain ⟨⟨others, rest₂⟩, hothers, h⟩ := Option.bind_eq_some_iff.mp h
      cases h
      obtain ⟨cs, rfl, ha⟩ := hitem text' a rest₁ hfirst
      obtain ⟨ds, rfl, has, hrest⟩ := ih hothers
      refine ⟨lead :: cs ++ ds, ?_, .cons (.mk ha) has, hrest⟩
      rw [takeChar?_eq_some.mp hlead]
      simp

/-- Items behind a character are read in front of anything that does not begin with it, if each is
read in front of the character and of what follows in the end. -/
theorem takeWhileLed?_complete {lead : Char} {rest : List Char} {as : List α} {cs : List Char}
    (h : Each (Led lead W) as cs) (hrest : rest.head? ≠ some lead)
    (hitem : ∀ a cs after, W a cs → after = rest ∨ after.head? = some lead →
      item (cs ++ after) = some (a, after))
    {fuel : Nat} (hfuel : cs.length ≤ fuel) :
    takeWhileLed? lead item fuel (cs ++ rest) = some (as, rest) := by
  induction h generalizing fuel with
  | nil =>
    have hnot := takeChar?_eq_none.mpr hrest
    cases fuel <;> simp [takeWhileLed?, hnot]
  | @cons a as cs ds first others ih =>
    obtain ⟨first⟩ := first
    next cs =>
    have hafter : ds ++ rest = rest ∨ (ds ++ rest).head? = some lead := by
      cases others with
      | nil => exact .inl rfl
      | cons next others =>
        cases next
        exact .inr rfl
    have htake := hitem a cs (ds ++ rest) first hafter
    rw [← List.append_assoc] at htake
    rw [List.length_append, List.length_cons] at hfuel
    cases fuel with
    | zero => omega
    | succ fuel =>
      have hlength : ds.length ≤ fuel := by omega
      have hlead : takeChar? lead (lead :: cs ++ ds ++ rest) = some (cs ++ ds ++ rest) :=
        takeChar?_eq_some.mpr rfl
      unfold takeWhileLed?
      rw [hlead]
      exact Option.bind_eq_some_iff.mpr
        ⟨_, htake, Option.bind_eq_some_iff.mpr ⟨_, ih hlength, rfl⟩⟩

theorem takeBracketed?_sound (hitem : Sound item W) :
    Sound (takeBracketed? item) (Bracketed W) := by
  intro text as rest h
  unfold takeBracketed? at h
  split at h
  · cases h
    exact ⟨[], rfl, .absent⟩
  · next text' hopen =>
    obtain ⟨cs, rfl, has⟩ := takeUntil?_sound hitem h
    refine ⟨'<' :: cs ++ ['>'], ?_, .present has⟩
    rw [takeChar?_eq_some.mp hopen]
    simp

theorem takeBracketed?_complete {rest : List Char} {as : List α} {cs : List Char}
    (h : Bracketed W as cs) (hrest : rest.head? ≠ some '<')
    (hstart : ∀ a cs, W a cs → ∃ c ds, cs = c :: ds ∧ c ≠ '>')
    (hitem : ∀ a others cs ds, (a :: others) <:+ as → W a cs → Each W others ds →
      item (cs ++ (ds ++ '>' :: rest)) = some (a, ds ++ '>' :: rest)) :
    takeBracketed? item (cs ++ rest) = some (as, rest) := by
  unfold takeBracketed?
  cases h with
  | absent => rw [List.nil_append, takeChar?_eq_none.mpr hrest]
  | @present _ cs items =>
    have hopen : takeChar? '<' ('<' :: cs ++ ['>'] ++ rest) = some (cs ++ '>' :: rest) :=
      takeChar?_eq_some.mpr (by simp)
    rw [hopen]
    exact takeUntil?_complete items hstart hitem (by simp)

end Lists

/-! ## Types -/

/-- The reader takes the types that are not primitive. -/
structure ReadsReferences (reference : List Char → Option (TypeSignature × List Char))
    (R : TypeSignature → List Char → Prop) : Prop where
  sound : Sound reference R
  complete : Complete reference R
  /-- Such a type is known by its first character. -/
  starts : ∀ t cs, R t cs → ∃ c ds, cs = c :: ds ∧ (c = 'L' ∨ c = 'T' ∨ c = '[')

section Nesting

variable {reference : List Char → Option (TypeSignature × List Char)}
  {R : TypeSignature → List Char → Prop} (h : ReadsReferences reference R)
include h

theorem ReadsReferences.start_ne {t : TypeSignature} {cs : List Char} (ht : R t cs) {d : Char}
    (hd : d ∉ ['L', 'T', '[']) : ∃ c ds, cs = c :: ds ∧ c ≠ d := by
  obtain ⟨c, ds, hcs, hc⟩ := h.starts t cs ht
  refine ⟨c, ds, hcs, ?_⟩
  rintro rfl
  exact hd (by simpa using hc)

theorem takeType?_sound : Sound (takeType? reference) (TypeWriting R) := by
  intro text t rest ht
  unfold takeType? at ht
  split at ht
  · next p hp =>
    cases ht
    cases text with
    | nil => cases hp
    | cons c text =>
      obtain rfl : c = p.letter := Primitive.ofLetter?_eq_some.mp hp
      exact ⟨[p.letter], rfl, .base p⟩
  · obtain ⟨cs, rfl, hcs⟩ := h.sound text t rest ht
    exact ⟨cs, rfl, .reference hcs⟩

theorem takeType?_complete : Complete (takeType? reference) (TypeWriting R) := by
  intro t cs rest ht
  cases ht with
  | base p => simp [takeType?, Primitive.ofLetter?_letter]
  | reference type =>
    obtain ⟨c, ds, rfl, hc⟩ := h.starts t cs type
    have hnot : Primitive.ofLetter? c = none := by
      rcases hc with rfl | rfl | rfl <;> rfl
    unfold takeType?
    rw [List.cons_append, List.head?_cons, Option.bind_some, hnot]
    exact h.complete t (c :: ds) rest type

theorem start_of_typeWriting {t : TypeSignature} {cs : List Char} (ht : TypeWriting R t cs)
    {d : Char} (hletter : ∀ p : Primitive, p.letter ≠ d) (hd : d ∉ ['L', 'T', '[']) :
    ∃ c ds, cs = c :: ds ∧ c ≠ d := by
  cases ht with
  | base p => exact ⟨p.letter, [], rfl, hletter p⟩
  | reference type => exact h.start_ne type hd

theorem takeArgument?_sound : Sound (takeArgument? reference) (ArgumentWriting R) := by
  intro text a rest ha
  unfold takeArgument? at ha
  split at ha
  · cases ha
    exact ⟨['*'], rfl, .any⟩
  · next text =>
    obtain ⟨⟨t, rest⟩, ht, ha⟩ := Option.map_eq_some_iff.mp ha
    cases ha
    obtain ⟨cs, rfl, hcs⟩ := h.sound _ t rest ht
    exact ⟨'+' :: cs, rfl, .upTo hcs⟩
  · next text =>
    obtain ⟨⟨t, rest⟩, ht, ha⟩ := Option.map_eq_some_iff.mp ha
    cases ha
    obtain ⟨cs, rfl, hcs⟩ := h.sound _ t rest ht
    exact ⟨'-' :: cs, rfl, .downTo hcs⟩
  · obtain ⟨⟨t, rest⟩, ht, ha⟩ := Option.map_eq_some_iff.mp ha
    cases ha
    obtain ⟨cs, rfl, hcs⟩ := h.sound _ t rest ht
    exact ⟨cs, rfl, .exact hcs⟩

theorem takeArgument?_complete : Complete (takeArgument? reference) (ArgumentWriting R) := by
  intro a cs rest ha
  cases ha with
  | any => rfl
  | exact type =>
    have htake := h.complete _ cs rest type
    obtain ⟨c, ds, rfl, hc⟩ := h.starts _ cs type
    rcases hc with rfl | rfl | rfl <;> exact Option.map_eq_some_iff.mpr ⟨_, htake, rfl⟩
  | upTo type => exact Option.map_eq_some_iff.mpr ⟨_, h.complete _ _ rest type, rfl⟩
  | downTo type => exact Option.map_eq_some_iff.mpr ⟨_, h.complete _ _ rest type, rfl⟩

theorem start_of_argumentWriting {a : TypeArgument} {cs : List Char} (ha : ArgumentWriting R a cs) :
    ∃ c ds, cs = c :: ds ∧ c ≠ '>' := by
  cases ha with
  | any => exact ⟨'*', [], rfl, by decide⟩
  | exact type => exact h.start_ne type (by decide)
  | upTo type => exact ⟨'+', _, rfl, by decide⟩
  | downTo type => exact ⟨'-', _, rfl, by decide⟩

theorem takeArguments_complete {as : List TypeArgument} {cs rest : List Char}
    (has : Bracketed (ArgumentWriting R) as cs)
    (hrest : rest.head? = some '.' ∨ rest.head? = some ';') :
    takeBracketed? (takeArgument? reference) (cs ++ rest) = some (as, rest) := by
  have hopen : rest.head? ≠ some '<' := by
    rcases hrest with hrest | hrest <;> simp [hrest]
  exact takeBracketed?_complete has hopen (fun _ _ => start_of_argumentWriting h)
    fun a _ cs _ _ ha _ => takeArgument?_complete h a cs _ ha

theorem takeSegment?_sound : Sound (takeSegment? reference) (SegmentWriting R) := by
  intro text s rest hs
  obtain ⟨⟨name, rest₁⟩, hname, hs⟩ := Option.bind_eq_some_iff.mp hs
  obtain ⟨⟨arguments, rest₂⟩, harguments, hs⟩ := Option.bind_eq_some_iff.mp hs
  cases hs
  obtain ⟨rfl, isName⟩ := takeIdentifier?_sound hname
  obtain ⟨cs, rfl, hcs⟩ := takeBracketed?_sound (takeArgument?_sound h) _ _ _ harguments
  exact ⟨name.toList ++ cs, by simp, .mk isName hcs⟩

omit h in
/-- A name stops in front of its arguments, or of what follows them if there are none. -/
theorem start_of_arguments {as : List TypeArgument} {cs rest : List Char}
    (has : Bracketed (ArgumentWriting R) as cs)
    (hrest : rest.head? = some '.' ∨ rest.head? = some ';') :
    ∃ c ds, cs ++ rest = c :: ds ∧ c ∈ classNameEnd := by
  cases has with
  | absent =>
    rcases hrest with hrest | hrest
    · obtain ⟨ds, rfl⟩ := List.head?_eq_some_iff.mp hrest
      exact ⟨'.', ds, rfl, by decide⟩
    · obtain ⟨ds, rfl⟩ := List.head?_eq_some_iff.mp hrest
      exact ⟨';', ds, rfl, by decide⟩
  | present => exact ⟨'<', _, rfl, by decide⟩

theorem takeSegment?_complete {s : ClassSegment} {cs rest : List Char} (hs : SegmentWriting R s cs)
    (hrest : rest.head? = some '.' ∨ rest.head? = some ';') :
    takeSegment? reference (cs ++ rest) = some (s, rest) := by
  cases hs with
  | @mk name arguments cs isName list =>
    have harguments := takeArguments_complete h list hrest
    obtain ⟨c, ds, hcons, hc⟩ := start_of_arguments list hrest
    have hname := takeIdentifier?_complete ds isName hc
    rw [← hcons, ← List.append_assoc] at hname
    exact Option.bind_eq_some_iff.mpr
      ⟨_, hname, Option.bind_eq_some_iff.mpr ⟨_, harguments, rfl⟩⟩

theorem takeClassType?_sound : Sound (takeClassType? reference) (ClassWriting R) := by
  intro text c rest hc
  obtain ⟨rest₁, hopen, hc⟩ := Option.bind_eq_some_iff.mp hc
  obtain ⟨⟨qualified, rest₂⟩, hname, hc⟩ := Option.bind_eq_some_iff.mp hc
  obtain ⟨⟨arguments, rest₃⟩, harguments, hc⟩ := Option.bind_eq_some_iff.mp hc
  obtain ⟨⟨inner, rest₄⟩, hinner, hc⟩ := Option.bind_eq_some_iff.mp hc
  obtain ⟨rest₅, hclose, hc⟩ := Option.bind_eq_some_iff.mp hc
  obtain ⟨hqualified, hnoSlash⟩ := splitQualified_sound qualified rfl
  cases hc
  obtain rfl := takeChar?_eq_some.mp hopen
  obtain ⟨rfl, isName⟩ := takeIdentifier?_sound hname
  obtain ⟨cs, rfl, hcs⟩ := takeBracketed?_sound (takeArgument?_sound h) _ _ _ harguments
  obtain ⟨ds, hds, hinner, -⟩ := takeWhileLed?_sound (takeSegment?_sound h) hinner
  rw [takeChar?_eq_some.mp hclose] at hds
  rw [hqualified] at isName
  refine ⟨_, ?_, .mk isName hnoSlash hcs hinner⟩
  rw [hds, hqualified]
  simp

theorem takeClassType?_complete : Complete (takeClassType? reference) (ClassWriting R) := by
  intro c cs rest hc
  cases hc with
  | @mk package name arguments inner cs ds isName noSlash list segments =>
    have htext : 'L' :: qualifiedName package name ++ cs ++ ds ++ [';'] ++ rest
        = 'L' :: (qualifiedName package name ++ (cs ++ (ds ++ ';' :: rest))) := by simp
    have hinner : takeWhileLed? '.' (takeSegment? reference) (ds ++ ';' :: rest).length
        (ds ++ ';' :: rest) = some (inner, ';' :: rest) := by
      refine takeWhileLed?_complete segments (by simp) (fun s es after hs hafter => ?_) (by simp)
      refine takeSegment?_complete h hs ?_
      rcases hafter with rfl | hafter
      · exact .inr rfl
      · exact .inl hafter
    -- what follows the name or its arguments is a dot or the semicolon
    have hhead : (ds ++ ';' :: rest).head? = some '.' ∨ (ds ++ ';' :: rest).head? = some ';' := by
      cases segments with
      | nil => exact .inr rfl
      | cons first others =>
        cases first
        exact .inl rfl
    have harguments := takeArguments_complete h list hhead
    have hname : takeIdentifier? classNameEnd
        (qualifiedName package name ++ (cs ++ (ds ++ ';' :: rest)))
        = some (String.ofList (qualifiedName package name), cs ++ (ds ++ ';' :: rest)) := by
      obtain ⟨d, es, hcons, hd⟩ := start_of_arguments list hhead
      have hofList := (String.toList_ofList (l := qualifiedName package name)).symm
      rw [hcons]
      nth_rewrite 1 [hofList]
      exact takeIdentifier?_complete es (hofList ▸ isName) hd
    have hsplit : splitQualified (String.ofList (qualifiedName package name)) = (package, name) :=
      splitQualified_complete String.toList_ofList noSlash
    rw [htext]
    unfold takeClassType?
    refine Option.bind_eq_some_iff.mpr ⟨_, takeChar?_eq_some.mpr rfl, ?_⟩
    refine Option.bind_eq_some_iff.mpr ⟨_, hname, ?_⟩
    refine Option.bind_eq_some_iff.mpr ⟨_, harguments, ?_⟩
    refine Option.bind_eq_some_iff.mpr ⟨_, hinner, ?_⟩
    refine Option.bind_eq_some_iff.mpr ⟨_, takeChar?_eq_some.mpr rfl, ?_⟩
    rw [hsplit]
    rfl

theorem takeReferenceOver?_sound : Sound (takeReferenceOver? reference) (ReferenceWriting R) := by
  intro text t rest ht
  unfold takeReferenceOver? at ht
  split at ht
  · obtain ⟨⟨c, rest⟩, hc, ht⟩ := Option.map_eq_some_iff.mp ht
    cases ht
    obtain ⟨cs, hcs, hwriting⟩ := takeClassType?_sound h _ _ _ hc
    exact ⟨cs, hcs, .classType hwriting⟩
  · obtain ⟨⟨name, rest₁⟩, hname, ht⟩ := Option.bind_eq_some_iff.mp ht
    obtain ⟨rest₂, hclose, ht⟩ := Option.bind_eq_some_iff.mp ht
    cases ht
    obtain ⟨rfl, isName⟩ := takeIdentifier?_sound hname
    rw [takeChar?_eq_some.mp hclose]
    exact ⟨'T' :: name.toList ++ [';'], by simp, .typeVar isName⟩
  · obtain ⟨⟨element, rest⟩, helement, ht⟩ := Option.map_eq_some_iff.mp ht
    cases ht
    obtain ⟨cs, rfl, hcs⟩ := takeType?_sound h _ _ _ helement
    exact ⟨'[' :: cs, rfl, .array hcs⟩
  · cases ht

theorem takeReferenceOver?_complete :
    Complete (takeReferenceOver? reference) (ReferenceWriting R) := by
  intro t cs rest ht
  cases ht with
  | @classType c cs type =>
    have htake := takeClassType?_complete h c cs rest type
    cases type
    exact Option.map_eq_some_iff.mpr ⟨_, htake, rfl⟩
  | @typeVar name isName =>
    have hname := takeIdentifier?_complete rest isName (List.mem_singleton_self ';')
    have htext : 'T' :: name.toList ++ [';'] ++ rest = 'T' :: (name.toList ++ ';' :: rest) := by simp
    rw [htext]
    exact Option.bind_eq_some_iff.mpr
      ⟨_, hname, Option.bind_eq_some_iff.mpr ⟨_, takeChar?_eq_some.mpr rfl, rfl⟩⟩
  | array element =>
    exact Option.map_eq_some_iff.mpr ⟨_, takeType?_complete h _ _ rest element, rfl⟩

theorem readsReferences_over : ReadsReferences (takeReferenceOver? reference) (ReferenceWriting R) where
  sound := takeReferenceOver?_sound h
  complete := takeReferenceOver?_complete h
  starts t cs ht := by
    cases ht with
    | classType type =>
      cases type
      exact ⟨'L', _, rfl, .inl rfl⟩
    | typeVar => exact ⟨'T', _, rfl, .inr (.inl rfl)⟩
    | array => exact ⟨'[', _, rfl, .inr (.inr rfl)⟩

end Nesting

/-- The reader for a depth takes the types that nest at most as deep. -/
theorem readsReferences (depth : Nat) : ReadsReferences (takeReference? depth) (Nested depth) := by
  induction depth with
  | zero => exact ⟨nofun, nofun, nofun⟩
  | succ depth ih => exact readsReferences_over ih

/-! ## Type parameters -/

section TypeParameters

variable {fuel : Nat}

/-- A bound that is left out is missed only in front of another one or the end of the list. -/
theorem takeClassBound?_sound {text rest : List Char} {b : Option TypeSignature}
    (h : takeClassBound? fuel text = some (b, rest)) :
    ∃ cs, text = cs ++ rest ∧ BoundWriting (Nested fuel) b cs
      ∧ (b = none → rest.head? = some ':' ∨ rest.head? = some '>') := by
  unfold takeClassBound? at h
  split at h
  · cases h
    exact ⟨[], rfl, .absent, fun _ => .inl rfl⟩
  · cases h
    exact ⟨[], rfl, .absent, fun _ => .inr rfl⟩
  · obtain ⟨⟨t, rest⟩, ht, h⟩ := Option.map_eq_some_iff.mp h
    cases h
    obtain ⟨cs, rfl, hcs⟩ := (readsReferences fuel).sound _ t rest ht
    exact ⟨cs, rfl, .present hcs, nofun⟩

theorem takeClassBound?_complete {rest cs : List Char} {b : Option TypeSignature}
    (h : BoundWriting (Nested fuel) b cs)
    (hrest : b = none → rest.head? = some ':' ∨ rest.head? = some '>') :
    takeClassBound? fuel (cs ++ rest) = some (b, rest) := by
  cases h with
  | absent =>
    rw [List.nil_append]
    cases rest with
    | nil => simp at hrest
    | cons c rest =>
      have hc : c = ':' ∨ c = '>' := by simpa using hrest
      rcases hc with rfl | rfl <;> rfl
  | @present t cs type =>
    have htake := (readsReferences fuel).complete t cs rest type
    obtain ⟨c, ds, rfl, hc⟩ := (readsReferences fuel).starts t cs type
    rcases hc with rfl | rfl | rfl <;> exact Option.map_eq_some_iff.mpr ⟨_, htake, rfl⟩

theorem takeTypeParameter?_sound {text rest : List Char} {p : TypeParameter}
    (h : takeTypeParameter? fuel text = some (p, rest)) :
    ∃ cs, text = cs ++ rest ∧ ParameterWriting (Nested fuel) p cs
      ∧ (p.HasBound ∨ rest.head? = some '>') := by
  obtain ⟨⟨name, rest₁⟩, hname, h⟩ := Option.bind_eq_some_iff.mp h
  obtain ⟨rest₂, hcolon, h⟩ := Option.bind_eq_some_iff.mp h
  obtain ⟨⟨classBound, rest₃⟩, hbound, h⟩ := Option.bind_eq_some_iff.mp h
  obtain ⟨⟨interfaceBounds, rest₄⟩, hothers, h⟩ := Option.bind_eq_some_iff.mp h
  cases h
  obtain ⟨rfl, isName⟩ := takeIdentifier?_sound hname
  obtain rfl := takeChar?_eq_some.mp hcolon
  obtain ⟨cs, rfl, hcs, hnone⟩ := takeClassBound?_sound hbound
  obtain ⟨ds, rfl, hds, hrest⟩ := takeWhileLed?_sound (readsReferences fuel).sound hothers
  refine ⟨name.toList ++ ':' :: cs ++ ds, by simp, .mk isName hcs hds, ?_⟩
  -- without a bound nothing but the end of the list can follow
  by_cases hbounds : classBound = none ∧ interfaceBounds = []
  · obtain ⟨rfl, rfl⟩ := hbounds
    cases hds
    exact .inr ((hnone rfl).resolve_left hrest)
  · exact .inl (not_and_or.mp hbounds)

theorem takeTypeParameter?_complete {rest cs : List Char} {p : TypeParameter}
    (h : ParameterWriting (Nested fuel) p cs) (hcolon : rest.head? ≠ some ':')
    (hrest : p.HasBound ∨ rest.head? = some '>') :
    takeTypeParameter? fuel (cs ++ rest) = some (p, rest) := by
  cases h with
  | @mk name classBound interfaceBounds cs ds isName first others =>
    have htext : name.toList ++ ':' :: cs ++ ds ++ rest
        = name.toList ++ ':' :: (cs ++ (ds ++ rest)) := by simp
    have hname := takeIdentifier?_complete (cs ++ (ds ++ rest)) isName
      (List.mem_cons_self (a := ':'))
    have hbound : takeClassBound? fuel (cs ++ (ds ++ rest)) = some (classBound, ds ++ rest) := by
      refine takeClassBound?_complete first ?_
      rintro rfl
      cases others with
      | nil => exact .inr (hrest.resolve_left (by simp [TypeParameter.HasBound]))
      | cons next others =>
        cases next
        exact .inl rfl
    have hothers : takeWhileLed? ':' (takeReference? fuel) (ds ++ rest).length (ds ++ rest)
        = some (interfaceBounds, rest) :=
      takeWhileLed?_complete others hcolon
        (fun t cs after ht _ => (readsReferences fuel).complete t cs after ht) (by simp)
    rw [htext]
    refine Option.bind_eq_some_iff.mpr ⟨_, hname, ?_⟩
    refine Option.bind_eq_some_iff.mpr ⟨_, takeChar?_eq_some.mpr rfl, ?_⟩
    refine Option.bind_eq_some_iff.mpr ⟨_, hbound, ?_⟩
    exact Option.bind_eq_some_iff.mpr ⟨_, hothers, rfl⟩

/-- Where a list of type parameters is read, each but the last has a bound. -/
theorem hasBound_of_takeUntil? {depth : Nat} {text rest : List Char} {ps : List TypeParameter}
    (h : takeUntil? '>' (takeTypeParameter? depth) fuel text = some (ps, rest)) :
    ∀ p ∈ ps.dropLast, p.HasBound := by
  induction fuel generalizing text ps with
  | zero =>
    unfold takeUntil? at h
    split at h
    · cases h
      nofun
    · cases h
  | succ fuel ih =>
    unfold takeUntil? at h
    split at h
    · cases h
      nofun
    · obtain ⟨⟨p, rest₁⟩, hfirst, h⟩ := Option.bind_eq_some_iff.mp h
      obtain ⟨⟨others, rest₂⟩, hothers, h⟩ := Option.bind_eq_some_iff.mp h
      cases h
      have hall := ih hothers
      cases others with
      | nil => nofun
      | cons q others =>
        rw [List.dropLast_cons_cons, List.forall_mem_cons]
        refine ⟨?_, hall⟩
        obtain ⟨-, -, -, hbound⟩ := takeTypeParameter?_sound hfirst
        refine hbound.resolve_right fun hclose => ?_
        -- the list would have ended after this parameter
        obtain ⟨after, hafter⟩ := List.head?_eq_some_iff.mp hclose
        have hend : takeChar? '>' rest₁ = some after := takeChar?_eq_some.mpr hafter
        unfold takeUntil? at hothers
        dsimp only at hothers
        rw [hend] at hothers
        cases hothers

theorem takeTypeParameters_sound {text rest : List Char} {ps : List TypeParameter}
    (h : takeBracketed? (takeTypeParameter? fuel) text = some (ps, rest)) :
    ∃ cs, text = cs ++ rest ∧ ParametersWriting (Nested fuel) ps cs := by
  have hitem : Sound (takeTypeParameter? fuel) (ParameterWriting (Nested fuel)) := by
    intro text p rest hp
    obtain ⟨cs, htext, hcs, -⟩ := takeTypeParameter?_sound hp
    exact ⟨cs, htext, hcs⟩
  obtain ⟨cs, htext, hlist⟩ := takeBracketed?_sound hitem _ _ _ h
  refine ⟨cs, htext, hlist, ?_⟩
  unfold takeBracketed? at h
  split at h
  · cases h
    nofun
  · exact hasBound_of_takeUntil? h

theorem start_of_parameterWriting {R : TypeSignature → List Char → Prop} {p : TypeParameter}
    {cs : List Char} (h : ParameterWriting R p cs) :
    ∃ c ds, cs = c :: ds ∧ c ≠ ':' ∧ c ≠ '>' := by
  cases h with
  | @mk name _ _ cs ds isName =>
    cases hname : name.toList with
    | nil => exact absurd hname isName.nonempty
    | cons c chars =>
      have hc := isName.unbroken c (by simp [hname])
      exact ⟨c, chars ++ ':' :: cs ++ ds, by simp, by simpa using hc⟩

theorem takeTypeParameters_complete (rest : List Char) {cs : List Char} {ps : List TypeParameter}
    (h : ParametersWriting (Nested fuel) ps cs) (hrest : rest.head? ≠ some '<') :
    takeBracketed? (takeTypeParameter? fuel) (cs ++ rest) = some (ps, rest) := by
  refine takeBracketed?_complete h.list hrest (fun p cs hp => ?_) fun p others cs ds hp hcs hds => ?_
  · obtain ⟨c, ds, hcons, -, hc⟩ := start_of_parameterWriting hp
    exact ⟨c, ds, hcons, hc⟩
  · cases hds with
    | nil => exact takeTypeParameter?_complete hcs (by simp) (.inr rfl)
    | cons next others' =>
      obtain ⟨c, es, rfl, hc, -⟩ := start_of_parameterWriting next
      have hbound : p.HasBound := by
        obtain ⟨before, hbefore⟩ := hp
        refine h.bounded p ?_
        rw [← hbefore, List.dropLast_append_cons]
        simp
      exact takeTypeParameter?_complete hcs (by simpa using hc) (.inl hbound)

end TypeParameters

/-! ## Signatures -/

theorem start_of_classWriting {R : TypeSignature → List Char → Prop} {c : ClassTypeSignature}
    {cs : List Char} (h : ClassWriting R c cs) : ∃ ds, cs = 'L' :: ds := by
  cases h
  exact ⟨_, rfl⟩

theorem takeInterfaces?_sound {depth fuel : Nat} {text : List Char} {is : List ClassTypeSignature}
    (h : ClassSignature.ofChars?.takeInterfaces? depth fuel text = some is) :
    Each (ClassWriting (Nested depth)) is text := by
  induction fuel generalizing text is with
  | zero =>
    cases text with
    | nil =>
      cases h
      exact .nil
    | cons c text => cases h
  | succ fuel ih =>
    cases text with
    | nil =>
      cases h
      exact .nil
    | cons c text =>
      obtain ⟨⟨first, rest⟩, hfirst, h⟩ := Option.bind_eq_some_iff.mp h
      obtain ⟨others, hothers, h⟩ := Option.bind_eq_some_iff.mp h
      cases h
      obtain ⟨cs, htext, hcs⟩ := takeClassType?_sound (readsReferences depth) _ _ _ hfirst
      exact htext ▸ .cons hcs (ih hothers)

theorem takeInterfaces?_complete {depth : Nat} {cs : List Char} {is : List ClassTypeSignature}
    (h : Each (ClassWriting (Nested depth)) is cs) {fuel : Nat} (hfuel : cs.length ≤ fuel) :
    ClassSignature.ofChars?.takeInterfaces? depth fuel cs = some is := by
  induction h generalizing fuel with
  | nil => cases fuel <;> rfl
  | @cons i is cs ds first others ih =>
    have htake := takeClassType?_complete (readsReferences depth) i cs ds first
    obtain ⟨cs, rfl⟩ := start_of_classWriting first
    rw [List.length_append, List.length_cons] at hfuel
    cases fuel with
    | zero => omega
    | succ fuel =>
      have hlength : ds.length ≤ fuel := by omega
      exact Option.bind_eq_some_iff.mpr
        ⟨_, htake, Option.bind_eq_some_iff.mpr ⟨_, ih hlength, rfl⟩⟩

theorem ClassSignature.ofChars?_eq_some {text : List Char} {s : ClassSignature} :
    ofChars? text = some s ↔ ClassSignatureWriting Written s text := by
  constructor
  · intro h
    obtain ⟨⟨ps, rest₁⟩, hps, h⟩ := Option.bind_eq_some_iff.mp h
    obtain ⟨⟨c, rest₂⟩, hc, h⟩ := Option.bind_eq_some_iff.mp h
    obtain ⟨is, his, h⟩ := Option.bind_eq_some_iff.mp h
    cases h
    obtain ⟨cs, htext, hcs⟩ := takeTypeParameters_sound hps
    obtain ⟨ds, rfl, hds⟩ := takeClassType?_sound (readsReferences text.length) _ _ _ hc
    have hwriting : ClassSignatureWriting (Nested text.length) ⟨ps, c, is⟩ (cs ++ ds ++ rest₂) :=
      .mk hcs hds (takeInterfaces?_sound his)
    rw [htext, ← List.append_assoc]
    exact hwriting.imp fun _ _ _ => written_of_nested
  · intro h
    have hnested : ClassSignatureWriting (Nested text.length) s text :=
      h.imp fun t ds hds h => h.of_length_le hds
    generalize hdepth : text.length = depth at hnested
    cases hnested with
    | @mk ps c is cs ds es typeParameters superClass interfaces =>
      obtain ⟨ds', hstart⟩ := start_of_classWriting superClass
      have hps := takeTypeParameters_complete (ds ++ es) typeParameters (by simp [hstart])
      have hc := takeClassType?_complete (readsReferences depth) c ds es superClass
      have his := takeInterfaces?_complete interfaces (Nat.le_refl _)
      unfold ofChars?
      dsimp only
      rw [hdepth, List.append_assoc]
      refine Option.bind_eq_some_iff.mpr ⟨_, hps, ?_⟩
      refine Option.bind_eq_some_iff.mpr ⟨_, hc, ?_⟩
      exact Option.bind_eq_some_iff.mpr ⟨_, his, rfl⟩

theorem takeResult?_sound {depth : Nat} :
    Sound (takeResult? depth) (ResultWriting (Nested depth)) := by
  intro text r rest h
  unfold takeResult? at h
  split at h
  · cases h
    exact ⟨['V'], rfl, .absent⟩
  · obtain ⟨⟨t, rest⟩, ht, h⟩ := Option.map_eq_some_iff.mp h
    cases h
    obtain ⟨cs, rfl, hcs⟩ := takeType?_sound (readsReferences depth) _ _ _ ht
    exact ⟨cs, rfl, .present hcs⟩

theorem takeResult?_complete {depth : Nat} :
    Complete (takeResult? depth) (ResultWriting (Nested depth)) := by
  intro r cs rest h
  cases h with
  | absent => rfl
  | @present t cs type =>
    have htake := takeType?_complete (readsReferences depth) t cs rest type
    have hletter : ∀ p : Primitive, p.letter ≠ 'V' := by
      intro p
      cases p <;> decide
    obtain ⟨c, ds, rfl, hc⟩ := start_of_typeWriting (readsReferences depth) type hletter (by decide)
    unfold takeResult?
    split
    · next heq => exact absurd (List.cons.inj heq).1 hc
    · exact Option.map_eq_some_iff.mpr ⟨_, htake, rfl⟩

theorem MethodSignature.ofChars?_eq_some {text : List Char} {s : MethodSignature} :
    ofChars? text = some s ↔ MethodSignatureWriting Written s text := by
  constructor
  · intro h
    obtain ⟨⟨ps, rest₁⟩, hps, h⟩ := Option.bind_eq_some_iff.mp h
    obtain ⟨rest₂, hopen, h⟩ := Option.bind_eq_some_iff.mp h
    obtain ⟨⟨ts, rest₃⟩, hts, h⟩ := Option.bind_eq_some_iff.mp h
    obtain ⟨⟨r, rest₄⟩, hr, h⟩ := Option.bind_eq_some_iff.mp h
    obtain ⟨⟨es, rest₅⟩, hes, h⟩ := Option.bind_eq_some_iff.mp h
    dsimp only at h
    split at h
    · next hend =>
      cases h
      obtain ⟨cs, htext, hcs⟩ := takeTypeParameters_sound hps
      obtain rfl := takeChar?_eq_some.mp hopen
      obtain ⟨ds, rfl, hds⟩ := takeUntil?_sound (takeType?_sound (readsReferences text.length)) hts
      obtain ⟨rs, rfl, hrs⟩ := takeResult?_sound _ _ _ hr
      obtain ⟨fs, rfl, hfs, -⟩ := takeWhileLed?_sound (readsReferences text.length).sound hes
      obtain rfl : rest₅ = [] := List.isEmpty_iff.mp hend
      have hwriting : MethodSignatureWriting (Nested text.length) ⟨ps, ts, r, es⟩
          (cs ++ '(' :: ds ++ ')' :: rs ++ fs) := .mk hcs hds hrs hfs
      have htext' : text = cs ++ '(' :: ds ++ ')' :: rs ++ fs := by
        rw [htext]
        simp
      rw [htext']
      exact hwriting.imp fun _ _ _ => written_of_nested
    · cases h
  · intro h
    have hnested : MethodSignatureWriting (Nested text.length) s text :=
      h.imp fun t ds hds h => h.of_length_le hds
    generalize hdepth : text.length = depth at hnested
    cases hnested with
    | @mk ps ts r es cs ds rs fs typeParameters parameters result throws =>
      have htext : cs ++ '(' :: ds ++ ')' :: rs ++ fs
          = cs ++ '(' :: (ds ++ ')' :: (rs ++ (fs ++ []))) := by simp
      have hreads := readsReferences depth
      have hletter : ∀ p : Primitive, p.letter ≠ ')' := by
        intro p
        cases p <;> decide
      have hps := takeTypeParameters_complete ('(' :: (ds ++ ')' :: (rs ++ (fs ++ []))))
        typeParameters (by simp)
      have hts : takeUntil? ')' (takeType? (takeReference? depth)) (ds ++ ')' :: (rs ++ (fs ++ []))).length
          (ds ++ ')' :: (rs ++ (fs ++ []))) = some (ts, rs ++ (fs ++ [])) :=
        takeUntil?_complete parameters
          (fun _ _ ht => start_of_typeWriting hreads ht hletter (by decide))
          (fun t _ cs _ _ ht _ => takeType?_complete hreads t cs _ ht) (by simp)
      have hr := takeResult?_complete r rs (fs ++ []) result
      have hes : takeWhileLed? '^' (takeReference? depth) (fs ++ []).length (fs ++ [])
          = some (es, []) :=
        takeWhileLed?_complete throws (by simp)
          (fun t cs after ht _ => hreads.complete t cs after ht) (by simp)
      unfold ofChars?
      dsimp only
      rw [hdepth, htext]
      refine Option.bind_eq_some_iff.mpr ⟨_, hps, ?_⟩
      refine Option.bind_eq_some_iff.mpr ⟨_, takeChar?_eq_some.mpr rfl, ?_⟩
      refine Option.bind_eq_some_iff.mpr ⟨_, hts, ?_⟩
      refine Option.bind_eq_some_iff.mpr ⟨_, hr, ?_⟩
      exact Option.bind_eq_some_iff.mpr ⟨_, hes, rfl⟩

end Conformance.ClassFile
