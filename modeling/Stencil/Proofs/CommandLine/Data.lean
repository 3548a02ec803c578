import Stencil.Proofs.CommandLine.Host
import Stencil.Proofs.Document.Correspondence
import Stencil.Proofs.Document.Keys

/-!
# What data files leave

Loading a file moves the names of its document behind all others, in the order of
the document.  If a member has no counterpart, the members before it have been
loaded and nothing else.
-/

namespace Stencil

open Document

def Convertible (members : List (Bytes × Document)) : Prop :=
  ∀ m ∈ members, ∃ v, m.2.toValue = .ok v

theorem convertible_or_stops (members : List (Bytes × Document)) :
    Convertible members ∨
      ∃ front key j back e, members = front ++ (key, j) :: back ∧ Convertible front ∧
        j.toValue = .error e := by
  induction members with
  | nil =>
      exact Or.inl nofun
  | cons member rest ih =>
      rcases member with ⟨key, j⟩
      cases hj : j.toValue with
      | error e =>
          exact Or.inr ⟨[], key, j, rest, e, rfl, nofun, hj⟩
      | ok v =>
          rcases ih with hrest | ⟨front, key', j', back, e, rfl, hfront, he⟩
          · exact Or.inl (List.forall_mem_cons.mpr ⟨⟨v, hj⟩, hrest⟩)
          · exact Or.inr ⟨(key, j) :: front, key', j', back, e, rfl,
              List.forall_mem_cons.mpr ⟨⟨v, hj⟩, hfront⟩, he⟩

theorem Convertible.exists_paired {members : List (Bytes × Document)}
    (h : Convertible members) :
    ∃ entries, List.Forall₂ (Dict.Paired ConvertsTo) members entries := by
  induction members with
  | nil =>
      exact ⟨[], List.Forall₂.nil⟩
  | cons member rest ih =>
      rcases List.forall_mem_cons.mp h with ⟨⟨v, hv⟩, hrest⟩
      rcases ih hrest with ⟨entries, hentries⟩
      exact ⟨(member.1, v) :: entries, List.Forall₂.cons ⟨rfl, hv⟩ hentries⟩

namespace DataFile

/-!
# Storing a document
-/

theorem storeMembers_cons_of_ok {key : Bytes} {j : Document} {v : Value}
    (h : j.toValue = .ok v) (file : Bytes) (ns : Dict Value) (rest : List (Bytes × Document)) :
    storeMembers file ns ((key, j) :: rest) = storeMembers file (ns.replace key v) rest := by
  rw [storeMembers, h]

theorem storeMembers_cons_of_error {key : Bytes} {j : Document} {e : ValueError}
    (h : j.toValue = .error e) (file : Bytes) (ns : Dict Value)
    (rest : List (Bytes × Document)) :
    storeMembers file ns ((key, j) :: rest) = (ns, .error (.unsupported key file e)) := by
  rw [storeMembers, h]

theorem storeMembers_append {front : List (Bytes × Document)} {entries : List (Bytes × Value)}
    (h : List.Forall₂ (Dict.Paired ConvertsTo) front entries) (file : Bytes) (ns : Dict Value)
    (back : List (Bytes × Document)) :
    storeMembers file ns (front ++ back) =
      storeMembers file (entries.foldl (fun d e => d.replace e.1 e.2) ns) back := by
  induction h generalizing ns with
  | nil =>
      rfl
  | @cons member entry _ _ hpaired _ ih =>
      rcases member with ⟨key, j⟩
      rcases entry with ⟨_, v⟩
      rcases hpaired with ⟨rfl, hv⟩
      rw [List.cons_append, storeMembers_cons_of_ok hv, ih]
      rfl

theorem store_of_paired {members : Dict Document} {entries : List (Bytes × Value)}
    (hdistinct : members.Distinct)
    (h : List.Forall₂ (Dict.Paired ConvertsTo) members.entries entries) (file : Bytes)
    (ns : Dict Value) :
    store file ns (.object members) =
      (⟨ns.entries.filter (fun e => e.1 ∉ members.keys) ++ entries⟩, .ok ()) := by
  have hkeys : members.keys = (⟨entries⟩ : Dict Value).keys := Dict.keys_eq_of_paired h
  have hstored := storeMembers_append h file ns []
  rw [Dict.Distinct, hkeys] at hdistinct
  rw [List.append_nil, storeMembers, Dict.foldl_replace_of_distinct hdistinct] at hstored
  rw [store, hstored, hkeys]
  rfl

section Loading

variable [formats : Formats]

theorem load_of_read {file : DataFile} {j : Document} (h : file.read = .ok j)
    (ns : Dict Value) :
    load ns file = store file.name ns j := by
  rw [load, h]

theorem load_of_stop {file : DataFile} {members : Dict Document}
    (hread : file.read = .ok (.object members)) {front back : List (Bytes × Document)}
    {key : Bytes} {j : Document} {e : ValueError}
    (hmembers : members.entries = front ++ (key, j) :: back) (hfront : Convertible front)
    (he : j.toValue = .error e) (ns : Dict Value) :
    ∃ left, store file.name ns (.object ⟨front⟩) = (left, .ok ()) ∧
      load ns file = (left, .error (.unsupported key file.name e)) := by
  rcases hfront.exists_paired with ⟨entries, hentries⟩
  refine ⟨entries.foldl (fun d e => d.replace e.1 e.2) ns, ?_, ?_⟩
  · have hstored := storeMembers_append hentries file.name ns []
    rw [List.append_nil] at hstored
    exact hstored
  · rw [load_of_read hread, store, hmembers, storeMembers_append hentries,
      storeMembers_cons_of_error he]

/-!
# One file
-/

def Contains (file : DataFile) (key : Bytes) : Prop :=
  ∃ members, file.read = .ok (.object members) ∧ key ∈ members.keys

theorem exists_of_load_ok (hformats : formats.Unambiguous) {ns next : Dict Value}
    {file : DataFile} (h : load ns file = (next, .ok ())) :
    ∃ members entries, file.read = .ok (.object members) ∧ members.Distinct ∧
      List.Forall₂ (Dict.Paired ConvertsTo) members.entries entries ∧
      next = ⟨ns.entries.filter (fun e => e.1 ∉ members.keys) ++ entries⟩ := by
  cases hread : file.read with
  | error e =>
      rw [load, hread] at h
      cases h
  | ok j =>
      cases j with
      | object members =>
          have hdistinct := (unambiguous_of_read hformats hread).distinct
          rcases convertible_or_stops members.entries with
            hall | ⟨_, _, _, _, _, hmembers, hfront, he⟩
          · rcases hall.exists_paired with ⟨entries, hentries⟩
            rw [load_of_read hread, store_of_paired hdistinct hentries] at h
            cases h
            exact ⟨members, entries, rfl, hdistinct, hentries, rfl⟩
          · rcases load_of_stop hread hmembers hfront he ns with ⟨left, _, hload⟩
            rw [hload] at h
            cases h
      | _ =>
          rw [load_of_read hread] at h
          cases h

theorem get?_of_load_ok (hformats : formats.Unambiguous) {ns next : Dict Value}
    {file : DataFile} (h : load ns file = (next, .ok ())) :
    ∃ members, file.read = .ok (.object members) ∧ ∀ key, ∃ found,
      Option.Rel ConvertsTo (members.get? key) found ∧
        next.get? key = found.or (ns.get? key) := by
  rcases exists_of_load_ok hformats h with ⟨members, entries, hread, _, hentries, rfl⟩
  have hkeys : members.keys = entries.map Prod.fst := Dict.keys_eq_of_paired hentries
  refine ⟨members, hread, fun key => ⟨_, Dict.rel_get? hentries key, ?_⟩⟩
  rw [hkeys]
  exact ns.get?_filter_append entries key

theorem get?_of_contains (hformats : formats.Unambiguous) {ns next : Dict Value}
    {file : DataFile} (h : load ns file = (next, .ok ())) {members : Dict Document}
    (hread : file.read = .ok (.object members)) {key : Bytes} {j : Document}
    (hj : members.get? key = some j) : ∃ v, j.toValue = .ok v ∧ next.get? key = some v := by
  rcases get?_of_load_ok hformats h with ⟨others, hothers, hnext⟩
  rw [hread] at hothers
  cases hothers
  rcases hnext key with ⟨found, hfound, hget⟩
  rw [hj] at hfound
  cases hfound with
  | @some _ v hv =>
      rw [Option.some_or] at hget
      exact ⟨v, hv, hget⟩

theorem get?_of_not_contains (hformats : formats.Unambiguous) {ns next : Dict Value}
    {file : DataFile} (h : load ns file = (next, .ok ())) {key : Bytes}
    (hkey : ¬ file.Contains key) :
    next.get? key = ns.get? key := by
  rcases get?_of_load_ok hformats h with ⟨members, hread, hnext⟩
  rcases hnext key with ⟨found, hfound, hget⟩
  have hnone : members.get? key = none := by
    rw [Dict.get?_eq_none_iff]
    intro hmem
    exact hkey ⟨members, hread, hmem⟩
  rw [hnone] at hfound
  cases hfound
  rw [hget, Option.none_or]

/-!
# Several files
-/

inductive LoadsInTurn : Dict Value → List DataFile → Dict Value → Prop where
  | nil (ns : Dict Value) : LoadsInTurn ns [] ns
  | cons {ns next last : Dict Value} {file : DataFile} {rest : List DataFile} :
      load ns file = (next, .ok ()) → LoadsInTurn next rest last →
      LoadsInTurn ns (file :: rest) last

theorem LoadsInTurn.exists_between {ns last : Dict Value} {before behind : List DataFile}
    (h : LoadsInTurn ns (before ++ behind) last) :
    ∃ between, LoadsInTurn ns before between ∧ LoadsInTurn between behind last := by
  induction before generalizing ns with
  | nil =>
      exact ⟨ns, LoadsInTurn.nil ns, h⟩
  | cons file rest ih =>
      cases h with
      | cons hload hrest =>
          rcases ih hrest with ⟨between, hbefore, hbehind⟩
          exact ⟨between, LoadsInTurn.cons hload hbefore, hbehind⟩

theorem LoadsInTurn.get?_of_not_contains (hformats : formats.Unambiguous)
    {ns last : Dict Value} {files : List DataFile} (h : LoadsInTurn ns files last)
    {key : Bytes} (hkey : ∀ file ∈ files, ¬ file.Contains key) :
    last.get? key = ns.get? key := by
  induction h with
  | nil ns =>
      rfl
  | cons hload _ ih =>
      rw [List.forall_mem_cons] at hkey
      rw [ih hkey.right, DataFile.get?_of_not_contains hformats hload hkey.left]

theorem LoadsInTurn.get?_of_last (hformats : formats.Unambiguous) {ns last : Dict Value}
    {before behind : List DataFile} {file : DataFile}
    (h : LoadsInTurn ns (before ++ file :: behind) last) {members : Dict Document}
    (hread : file.read = .ok (.object members)) {key : Bytes} {j : Document}
    (hj : members.get? key = some j) (hlast : ∀ later ∈ behind, ¬ later.Contains key) :
    ∃ v, j.toValue = .ok v ∧ last.get? key = some v := by
  rcases h.exists_between with ⟨between, _, hfile⟩
  cases hfile with
  | cons hload hbehind =>
      rcases get?_of_contains hformats hload hread hj with ⟨v, hv, hget⟩
      refine ⟨v, hv, ?_⟩
      rw [hbehind.get?_of_not_contains hformats hlast]
      exact hget

inductive Reads {σ : Type} (host : Host (StateM σ)) : σ → List DataFile → σ → Prop where
  | nil (s : σ) : Reads host s [] s
  | cons {s read final : σ} {file : DataFile} {rest : List DataFile} :
      (host.readFile file.name).run s = (file.content, read) → Reads host read rest final →
      Reads host s (file :: rest) final

theorem loadAll_eq_ok_iff {σ : Type} (host : Host (StateM σ)) (s final : σ)
    (ns last : Dict Value) (names : List Bytes) :
    (CommandLine.loadAll host ns names).run s = (.ok last, final) ↔
      ∃ files, files.map DataFile.name = names ∧ Reads host s files final ∧
        LoadsInTurn ns files last := by
  induction names generalizing s ns with
  | nil =>
      constructor
      · intro h
        cases h
        exact ⟨[], rfl, Reads.nil _, LoadsInTurn.nil _⟩
      · intro h
        rcases h with ⟨files, hnames, hreads, hloads⟩
        cases List.map_eq_nil_iff.mp hnames
        cases hreads
        cases hloads
        rfl
  | cons name rest ih =>
      rcases hread : (host.readFile name).run s with ⟨content, read⟩
      rw [CommandLine.loadAll, run_bind_of_run_eq hread]
      constructor
      · intro h
        rcases hload : load ns ⟨name, content⟩ with ⟨next, e | _⟩
        · rw [hload] at h
          cases h
        · rw [hload] at h
          rcases (ih read next).mp h with ⟨files, rfl, hreads, hloads⟩
          exact ⟨⟨name, content⟩ :: files, rfl, Reads.cons hread hreads,
            LoadsInTurn.cons hload hloads⟩
      · intro h
        rcases h with ⟨files, hnames, hreads, hloads⟩
        cases hreads with
        | nil =>
            cases hnames
        | @cons _ _ _ file others hread' hothers =>
            rcases List.cons_eq_cons.mp hnames with ⟨rfl, hrest⟩
            rw [hread] at hread'
            cases hread'
            cases hloads with
            | cons hload hlater =>
                rw [hload]
                exact (ih read _).mpr ⟨others, hrest, hothers, hlater⟩

/-!
# The theorem
-/

/-- Whichever documents the formats read, as long as they have distinct keys: an object
whose members all convert leaves the entries of other names as they were, and its own
behind them in the order of the document.  Loading stops at the first member that does not
convert and leaves what the members before it alone would have left; without an object it
leaves everything.  After several files a name has the value of the last one that contains
it, and several files is what the command loads on any host. -/
theorem load_effect (hformats : formats.Unambiguous) (ns : Dict Value) :
    (∀ file members, file.read = .ok (.object members) → Convertible members.entries →
      ∃ converted, List.Forall₂ (Dict.Paired ConvertsTo) members.entries converted ∧
        load ns file =
          (⟨ns.entries.filter (fun e => e.1 ∉ members.keys) ++ converted⟩, .ok ())) ∧
      (∀ file members, file.read = .ok (.object members) → ¬ Convertible members.entries →
        ∃ front key j back e left, members.entries = front ++ (key, j) :: back ∧
          Convertible front ∧ j.toValue = .error e ∧
          store file.name ns (.object ⟨front⟩) = (left, .ok ()) ∧
          load ns file = (left, .error (.unsupported key file.name e))) ∧
      (∀ file j, file.read = .ok j → (∀ members, j ≠ .object members) →
        load ns file = (ns, .error (.notAnObject file.name))) ∧
      (∀ files last, LoadsInTurn ns files last → ∀ key,
        (∀ before file behind members j, files = before ++ file :: behind →
          file.read = .ok (.object members) → members.get? key = some j →
          (∀ later ∈ behind, ¬ later.Contains key) →
          ∃ v, j.toValue = .ok v ∧ last.get? key = some v) ∧
        ((∀ file ∈ files, ¬ file.Contains key) → last.get? key = ns.get? key)) ∧
      (∀ {σ : Type} (host : Host (StateM σ)) s final last names,
        (CommandLine.loadAll host ns names).run s = (.ok last, final) ↔
          ∃ files, files.map DataFile.name = names ∧ Reads host s files final ∧
            LoadsInTurn ns files last) := by
  refine ⟨?_, ?_, ?_, ?_, ?_⟩
  · intro file members hread hall
    rcases hall.exists_paired with ⟨converted, hconverted⟩
    refine ⟨converted, hconverted, ?_⟩
    rw [load_of_read hread,
      store_of_paired (unambiguous_of_read hformats hread).distinct hconverted]
  · intro file members hread hnot
    rcases (convertible_or_stops members.entries).resolve_left hnot with
      ⟨front, key, j, back, e, hmembers, hfront, he⟩
    rcases load_of_stop hread hmembers hfront he ns with ⟨left, hstored, hload⟩
    exact ⟨front, key, j, back, e, left, hmembers, hfront, he, hstored, hload⟩
  · intro file j hread hnot
    rw [load_of_read hread]
    cases j with
    | object members =>
        exact absurd rfl (hnot members)
    | _ =>
        rfl
  · intro files last h key
    constructor
    · intro before file behind members j hfiles hread hj hlast
      rw [hfiles] at h
      exact h.get?_of_last hformats hread hj hlast
    · intro hkey
      exact h.get?_of_not_contains hformats hkey
  · intro σ host s final last names
    exact loadAll_eq_ok_iff host s final ns last names

end Loading

/-- The text gives the name `a` the value one. -/
def oneJson : DataFile where
  name := Bytes.ofText "d.json"
  content := some [0x7B, 0x22, 0x61, 0x22, 0x3A, 0x31, 0x7D]

/-- The file has a new value for the first of two names, which makes it the last. -/
theorem load_effect_moves_name :
    Formats.standard.Unambiguous ∧ load ⟨[([0x61], .int 7), ([0x62], .int 8)]⟩ oneJson =
      (⟨[([0x62], .int 8), ([0x61], .int 1)]⟩, .ok ()) := by
  have hread : oneJson.read = .ok (.object ⟨[([0x61], .number (.integer 1))]⟩) := by
    rfl
  have hconvertible : Convertible [([0x61], .number (.integer 1))] :=
    List.forall_mem_singleton.mpr ⟨.int 1, rfl⟩
  refine ⟨Formats.unambiguous_standard, ?_⟩
  rcases (load_effect Formats.unambiguous_standard _).left _ _ hread hconvertible with
    ⟨converted, hconverted, hload⟩
  cases hconverted with
  | @cons _ entry _ _ hentry hnil =>
      rcases entry with ⟨key, v⟩
      rcases hentry with ⟨hkey, hv⟩
      cases hkey
      cases hv
      cases hnil
      rw [hload]
      rfl

end DataFile
end Stencil
