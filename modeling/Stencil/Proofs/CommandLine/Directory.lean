import Mathlib.Data.List.Induction
import Stencil.CommandLine.Directory
import Stencil.Dict.Lemmas
import Stencil.Proofs.CommandLine.Host

/-!
# Files of a directory

A directory in memory is a host on which files behave as they should.  Reading takes at
most the input.  A file can only be opened in a directory that is there already, so
that opening it changes what no path leads to: what is written afterwards arrives in
the file that was opened.
-/

namespace Stencil

theorem Bytes.notMem_of_mem_splitOn {b : UInt8} {bytes part : Bytes}
    (h : part ∈ bytes.splitOn b) : b ∉ part := by
  induction bytes generalizing part with
  | nil =>
      rw [List.mem_singleton.mp h]
      exact List.not_mem_nil
  | cons c rest ih =>
      rw [List.splitOn, List.splitOnP_cons_eq_if_modifyHead] at h
      split at h
      · cases h with
        | head =>
            exact List.not_mem_nil
        | tail _ hrest =>
            exact ih hrest
      · rename_i hc
        cases hsplit : rest.splitOnP (· == b) with
        | nil =>
            rw [hsplit] at h
            cases h
        | cons first others =>
            rw [List.splitOn, hsplit] at ih
            rw [hsplit] at h
            cases h with
            | head =>
                rw [List.mem_cons, not_or]
                constructor
                · intro hb
                  exact hc (beq_iff_eq.mpr hb.symm)
                · exact ih List.mem_cons_self
            | tail _ hrest =>
                exact ih (List.mem_cons_of_mem _ hrest)

theorem Bytes.prefix_of_notMem {b : UInt8} {short front last : Bytes} (hlast : b ∉ last)
    (h : short ++ [b] <+: front ++ last) : short ++ [b] <+: front := by
  induction last using List.reverseRecOn with
  | nil =>
      rw [List.append_nil] at h
      exact h
  | append_singleton inner c ih =>
      rw [List.mem_append, not_or] at hlast
      rw [← List.append_assoc, List.prefix_concat_iff] at h
      cases h with
      | inl hwhole =>
          have hb : [b] = [c] := (List.append_inj' hwhole rfl).right
          exact absurd (hb ▸ List.mem_cons_self) hlast.right
      | inr hwithin =>
          exact ih hlast.left hwithin

namespace Directory

/-!
# Names below the directory
-/

theorem joined_singleton (part : Bytes) : joined [part] = part := by
  simp [joined]

theorem joined_concat {parts : List Bytes} (hne : parts ≠ []) (last : Bytes) :
    joined (parts ++ [last]) = joined parts ++ DataFile.slash :: last := by
  induction parts with
  | nil =>
      exact absurd rfl hne
  | cons part rest ih =>
      cases rest with
      | nil =>
          simp [joined]
      | cons next rest =>
          have htail := ih (List.cons_ne_nil _ _)
          rw [joined, joined, List.cons_append] at htail
          simp [joined, List.intercalate_cons_cons, htail]

theorem below?_eq_some_iff (place : Location) (parts : List Bytes) :
    below? place = some parts ↔ place = home ++ parts := by
  unfold below?
  constructor
  · intro h
    split at h
    · rename_i hstart
      have hsplit := List.prefix_iff_eq_append.mp (List.isPrefixOf_iff_prefix.mp hstart)
      rw [← Option.some.inj h]
      exact hsplit.symm
    · cases h
  · intro h
    have hstart : home.isPrefixOf place = true := by
      rw [h, List.isPrefixOf_iff_prefix]
      exact List.prefix_append home parts
    rw [if_pos hstart, h, List.drop_left]

theorem hasDirectory_iff (d : Directory) (name : Bytes) :
    d.hasDirectory name = true ↔ ∃ key ∈ d.files.keys, name ++ [DataFile.slash] <+: key := by
  simp only [hasDirectory, List.any_eq_true, List.isPrefixOf_iff_prefix]

theorem hasDirectory_of_concat {d : Directory} {parts : List Bytes} (hne : parts ≠ [])
    {last : Bytes} (h : d.hasDirectory (joined (parts ++ [last])) = true) :
    d.hasDirectory (joined parts) = true := by
  rw [hasDirectory_iff] at h ⊢
  rcases h with ⟨key, hkey, hstart⟩
  refine ⟨key, hkey, List.IsPrefix.trans ?_ hstart⟩
  rw [joined_concat hne]
  simp

theorem isDirectory_home (d : Directory) : d.isDirectory home = true := rfl

theorem isDirectory_below (d : Directory) {parts : List Bytes} (hne : parts ≠ []) :
    d.isDirectory (home ++ parts) = d.hasDirectory (joined parts) := by
  have hbelow := (below?_eq_some_iff (home ++ parts) parts).mpr rfl
  cases parts with
  | nil =>
      exact absurd rfl hne
  | cons part rest =>
      simp only [isDirectory, hbelow]

/-!
# Walking through directories
-/

theorem isDirectory_dropLast {d : Directory} {place : Location}
    (h : d.isDirectory place = true) : d.isDirectory place.dropLast = true := by
  cases hbelow : below? place with
  | some parts =>
      rw [(below?_eq_some_iff place parts).mp hbelow] at h ⊢
      cases List.eq_nil_or_concat parts with
      | inl hnil =>
          rw [hnil]
          rfl
      | inr hconcat =>
          rcases hconcat with ⟨inner, last, hparts⟩
          rw [hparts, List.concat_eq_append] at h ⊢
          rw [← List.append_assoc, List.dropLast_concat]
          cases inner with
          | nil =>
              rfl
          | cons part rest =>
              have hinner : part :: rest ≠ [] := List.cons_ne_nil part rest
              rw [isDirectory_below d (List.append_ne_nil_of_left_ne_nil hinner _)] at h
              rw [isDirectory_below d hinner]
              exact hasDirectory_of_concat hinner h
  | none =>
      have hsystem : ∀ place ∈ systemDirectories,
          below? place.dropLast = none ∧ systemDirectories.contains place.dropLast = true := by
        decide
      simp only [isDirectory, hbelow, List.contains_iff_mem] at h
      rcases hsystem place h with ⟨hoff, hcontains⟩
      simp only [isDirectory, hoff]
      exact hcontains

theorem isDirectory_alias (d : Directory) {place target : Location}
    (h : aliases.lookup place = some target) : d.isDirectory target = true := by
  have hall : ∀ e ∈ aliases, d.isDirectory e.2 = true := by
    simp only [aliases, List.forall_mem_cons]
    exact ⟨rfl, rfl, rfl, nofun⟩
  exact hall (place, target) (mem_of_lookup h)

theorem isDirectory_enter {d : Directory} {place next : Location} {part : Bytes}
    (hplace : d.isDirectory place = true) (h : d.enter place part = some next) :
    d.isDirectory next = true := by
  unfold enter at h
  split at h
  · cases h
    exact hplace
  · split at h
    · cases h
      exact isDirectory_dropLast hplace
    · simp only at h
      split at h
      · rename_i hnext
        cases halias : aliases.lookup (place ++ [part]) with
        | none =>
            simp only [halias] at h
            cases h
            exact hnext
        | some target =>
            simp only [halias] at h
            cases h
            exact isDirectory_alias d halias
      · cases h

theorem isDirectory_walk {d : Directory} {place last : Location} {parts : List Bytes}
    (hplace : d.isDirectory place = true) (h : parts.foldlM d.enter place = some last) :
    d.isDirectory last = true := by
  induction parts generalizing place with
  | nil =>
      cases h
      exact hplace
  | cons part rest ih =>
      rw [List.foldlM_cons] at h
      rcases Option.bind_eq_some_iff.mp h with ⟨next, hnext, hrest⟩
      exact ih (isDirectory_enter hplace hnext) hrest

/-!
# Opening a file
-/

theorem target?_eq_file {d : Directory} {place : Location} {last name : Bytes}
    (h : d.target? place last = some (.file (.inside name))) :
    ∃ inner, place = home ++ inner ∧ name = joined (inner ++ [last]) := by
  unfold target? at h
  simp only at h
  split at h
  · cases h
  · rename_i hnot
    cases hbelow : below? (place ++ [last]) with
    | some parts =>
        rw [hbelow] at h
        have hfull := (below?_eq_some_iff _ parts).mp hbelow
        cases List.eq_nil_or_concat parts with
        | inl hnil =>
            rw [hnil, List.append_nil] at hfull
            rw [hfull] at hnot
            exact absurd d.isDirectory_home hnot
        | inr hconcat =>
            rcases hconcat with ⟨inner, other, hparts⟩
            rw [hparts, List.concat_eq_append, ← List.append_assoc] at hfull
            rcases List.append_inj' hfull rfl with ⟨hplace, hlast⟩
            cases hlast
            cases h
            refine ⟨inner, hplace, ?_⟩
            rw [hparts, List.concat_eq_append]
    | none =>
        rw [hbelow] at h
        simp only at h
        split at h
        · cases h
        · have hdevices : ∀ e ∈ devices, e.2 ≠ .file (.inside name) := by
            simp [devices]
          exact absurd rfl (hdevices _ (mem_of_lookup h))

theorem exists_of_resolve_eq_file {d : Directory} {path name : Bytes}
    (h : d.resolve path = some (.file (.inside name))) :
    ∃ inner last, DataFile.slash ∉ last ∧ d.isDirectory (home ++ inner) = true ∧
      name = joined (inner ++ [last]) := by
  unfold resolve at h
  simp only at h
  split at h
  · cases h
  · split at h
    · cases h
    · rcases Option.bind_eq_some_iff.mp h with ⟨place, hwalk, htarget⟩
      rcases target?_eq_file htarget with ⟨inner, hplace, hname⟩
      refine ⟨inner, _, ?_, ?_, hname⟩
      · cases hparts : (path.splitOn DataFile.slash).getLast? with
        | none =>
            exact List.not_mem_nil
        | some last =>
            exact Bytes.notMem_of_mem_splitOn (List.mem_of_getLast? hparts)
      · rw [← hplace]
        apply isDirectory_walk _ hwalk
        split
        · rfl
        · rfl

/-- The directories on the way to a file are there before the file is. -/
theorem hasDirectory_of_above {d : Directory} {inner : List Bytes} {last name : Bytes}
    (hlast : DataFile.slash ∉ last) (hinner : d.isDirectory (home ++ inner) = true)
    (hstart : name ++ [DataFile.slash] <+: joined (inner ++ [last])) :
    d.hasDirectory name = true := by
  cases inner with
  | nil =>
      rw [List.nil_append, joined_singleton] at hstart
      exact absurd (hstart.mem (List.mem_append_right name List.mem_cons_self)) hlast
  | cons part rest =>
      have hne : part :: rest ≠ [] := List.cons_ne_nil part rest
      rw [isDirectory_below d hne, hasDirectory_iff] at hinner
      rcases hinner with ⟨key, hkey, hbelow⟩
      rw [joined_concat hne, List.append_cons (joined _)] at hstart
      have hshort := Bytes.prefix_of_notMem hlast hstart
      exact (hasDirectory_iff d name).mpr ⟨key, hkey, hshort.trans hbelow⟩

theorem isDirectory_put {d : Directory} {path name : Bytes}
    (h : d.resolve path = some (.file (.inside name))) (content : Bytes) (place : Location) :
    isDirectory { d with files := d.files.put name content } place = d.isDirectory place := by
  rcases exists_of_resolve_eq_file h with ⟨inner, last, hlast, hinner, hname⟩
  have hkeys : ∀ below,
      hasDirectory { d with files := d.files.put name content } below =
        d.hasDirectory below := by
    intro below
    unfold hasDirectory
    simp only [Dict.keys_put]
    split
    · rfl
    · rw [List.any_append, List.any_cons, List.any_nil, Bool.or_false]
      cases hstart : (below ++ [DataFile.slash]).isPrefixOf name with
      | false =>
          exact Bool.or_false _
      | true =>
          rw [Bool.or_true]
          rw [List.isPrefixOf_iff_prefix, hname] at hstart
          exact (hasDirectory_of_above hlast hinner hstart).symm
  unfold isDirectory
  split
  · rfl
  · exact hkeys _
  · rfl

theorem resolve_congr {d d' : Directory}
    (h : ∀ place, d'.isDirectory place = d.isDirectory place) (path : Bytes)
    : d'.resolve path = d.resolve path := by
  have henter : d'.enter = d.enter := by
    funext place part
    simp only [enter, h]
  have htarget : d'.target? = d.target? := by
    funext place last
    simp only [target?, h]
  simp only [resolve, henter, htarget]

/-- A file that a path denotes changes no other path by being there. -/
theorem resolve_hold {d : Directory} {path : Bytes} {place : Place}
    (h : d.resolve path = some (.file place)) (bytes other : Bytes) :
    (d.hold place bytes).resolve other = d.resolve other := by
  apply resolve_congr
  cases place with
  | inside name =>
      exact isDirectory_put h bytes
  | temporary name =>
      exact fun _ => rfl

/-!
# What is seen
-/

theorem content?_hold_self (d : Directory) (place : Place) (bytes : Bytes) :
    (d.hold place bytes).content? place = some bytes := by
  cases place with
  | inside name =>
      exact (d.files.get?_put name name bytes).trans (if_pos rfl)
  | temporary name =>
      exact (d.temporary.get?_put name name bytes).trans (if_pos rfl)

theorem content?_hold_of_ne (d : Directory) {place other : Place} (h : other ≠ place)
    (bytes : Bytes) :
    (d.hold place bytes).content? other = d.content? other := by
  cases place with
  | inside name =>
      cases other with
      | inside _ =>
          exact (d.files.get?_put _ _ bytes).trans (if_neg fun heq =>
            h (congrArg Place.inside heq))
      | temporary _ =>
          rfl
  | temporary name =>
      cases other with
      | inside _ =>
          rfl
      | temporary _ =>
          exact (d.temporary.get?_put _ _ bytes).trans (if_neg fun heq =>
            h (congrArg Place.temporary heq))

def place? (d : Directory) (path : Bytes) : Option Place :=
  match d.resolve path with
  | some (.file place) => some place
  | _ => none

theorem place?_eq_some_iff (d : Directory) (path : Bytes) (place : Place) :
    d.place? path = some place ↔ d.resolve path = some (.file place) := by
  rw [place?]
  split
  · rename_i found hfound
    rw [hfound, Option.some.injEq, Option.some.injEq, Target.file.injEq]
  · rename_i hother
    exact iff_of_false nofun (hother place)

def view : Host.View Directory Place where
  place? := place?
  content? := content?
  output := output

theorem holds_hold {d : Directory} {path : Bytes} {place : Place}
    (h : d.resolve path = some (.file place)) (bytes : Bytes) :
    view.Holds d (d.hold place bytes) place bytes where
  place? := by
    funext other
    show (d.hold place bytes).place? other = d.place? other
    rw [place?, place?, resolve_hold h]
  content?_self := d.content?_hold_self place bytes
  content?_of_ne _ hne := d.content?_hold_of_ne hne bytes
  output := by
    cases place with
    | inside name =>
        rfl
    | temporary name =>
        rfl

/-!
# Operations
-/

theorem same_of_readFile {d d' : Directory} {path : Bytes} {content : Option Bytes}
    (h : (readFile path).run d = (content, d')) : view.Same d d' := by
  rw [readFile, StateT.run_bind, StateT.run_get, pure_bind] at h
  dsimp only at h
  split at h
  · cases h
    exact Host.View.Same.refl view d
  · cases h
    exact Host.View.Same.refl view d
  · cases h
    exact ⟨rfl, rfl, rfl⟩
  · cases h
    exact Host.View.Same.refl view d

theorem run_openFile {d : Directory} {path : Bytes} {place : Place}
    (h : d.resolve path = some (.file place)) :
    (openFile path).run d = (true, d.hold place []) := by
  rw [openFile, StateT.run_bind, StateT.run_get, pure_bind]
  dsimp only
  rw [h]
  rfl

theorem run_writeFile {d : Directory} {path content : Bytes} {place : Place}
    (h : d.resolve path = some (.file place)) (hcontent : d.content? place = some content)
    (bytes : Bytes) :
    (writeFile path bytes).run d = (.ok (), d.hold place (content ++ bytes)) := by
  rw [writeFile, StateT.run_bind, StateT.run_get, pure_bind]
  dsimp only
  rw [h]
  dsimp only
  rw [hcontent]
  rfl

theorem lawful_host : host.Lawful view where
  readFile h := same_of_readFile h
  readInput h := by
    cases h
    exact ⟨rfl, rfl, rfl⟩
  openFile hplace h := by
    have hresolve := (place?_eq_some_iff _ _ _).mp hplace
    cases (run_openFile hresolve).symm.trans h
    exact holds_hold hresolve []
  writeFile hplace hcontent h := by
    have hresolve := (place?_eq_some_iff _ _ _).mp hplace
    cases (run_writeFile hresolve hcontent _).symm.trans h
    exact holds_hold hresolve _
  writeOutput h := by
    cases h
    exact ⟨rfl, rfl, rfl⟩

theorem accepts_of_place? {d : Directory} {path : Bytes} {place : Place}
    (h : d.place? path = some place) : host.Accepts view d path := by
  intro d' hsame
  have hresolve : d'.resolve path = some (.file place) := by
    rw [← place?_eq_some_iff, ← h]
    exact congrFun hsame.place? path
  have hopened : (d'.hold place []).resolve path = some (.file place) :=
    (resolve_hold hresolve [] path).trans hresolve
  have hempty := d'.content?_hold_self place []
  exact ⟨_, run_openFile hresolve, fun bytes => ⟨_, run_writeFile hopened hempty bytes⟩⟩

end Directory
end Stencil
