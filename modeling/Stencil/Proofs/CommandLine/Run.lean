import Stencil.Proofs.CommandLine.Data
import Stencil.Proofs.CommandLine.Defines
import Stencil.Proofs.CommandLine.Directory
import Stencil.Proofs.Render.Composition

/-!
# Runs

A run loads the data files, applies the defines, reads the template and compiles it before
it opens the output.  As long as one of these can still fail, nothing has been written;
afterwards only the rendering can fail, and what was rendered up to there is kept.  That
holds on any host on which reading leaves files alone and writing does what it says.
-/

namespace Stencil
namespace CommandLine

theorem exitCode_eq_zero_iff (ending : Ending) : exitCode ending = 0 ↔ ending = none := by
  cases ending with
  | none =>
      exact iff_of_true rfl rfl
  | some complaint =>
      exact iff_of_false Nat.one_ne_zero nofun

section Run

variable {σ π : Type} {host : Host (StateM σ)} {view : Host.View σ π}

/-!
# Before the output is opened
-/

theorem same_of_loadAll [Formats] (hlawful : host.Lawful view) {s s' : σ} {ns : Dict Value}
    {names : List Bytes} {result : Except CommandError (Dict Value)}
    (h : (loadAll host ns names).run s = (result, s')) : view.Same s s' := by
  induction names generalizing s ns with
  | nil =>
      cases h
      exact Host.View.Same.refl view _
  | cons name rest ih =>
      rcases hread : (host.readFile name).run s with ⟨content, read⟩
      have hsame := hlawful.readFile hread
      rw [loadAll, run_bind_of_run_eq hread] at h
      rcases hload : DataFile.load ns ⟨name, content⟩ with ⟨next, e | _⟩
      · rw [hload] at h
        cases h
        exact hsame
      · rw [hload] at h
        exact hsame.trans (ih h)

theorem same_of_readTemplate (hlawful : host.Lawful view) {s s' : σ} {name : Bytes}
    {source : Option (String × Bytes)} (h : (readTemplate host name).run s = (source, s')) :
    view.Same s s' := by
  rw [readTemplate] at h
  split at h
  · rcases hread : host.readInput.run s with ⟨input, read⟩
    rw [run_bind_of_run_eq hread] at h
    cases h
    exact hlawful.readInput hread
  · rcases hread : (host.readFile name).run s with ⟨content, read⟩
    rw [run_bind_of_run_eq hread] at h
    cases h
    exact hlawful.readFile hread

/-- The data files load in turn, the defines apply to what they hold, and the template can
be read and compiles: with which namespace and template the rendering begins, and in which
state of the host. -/
inductive Prepares [Formats] (host : Host (StateM σ)) (s : σ) (invocation : Invocation) :
    Dict Value → Template → σ → Prop where
  | intro {files : List DataFile} {read ready : σ} {loaded ns : Dict Value} {name : String}
      {source : Bytes} {t : Template} :
      files.map DataFile.name = invocation.data → DataFile.Reads host s files read →
      DataFile.LoadsInTurn .empty files loaded → Define.Applies loaded invocation.defines ns →
      (readTemplate host invocation.template).run read = (some (name, source), ready) →
      Template.compile source = .ok t → Prepares host s invocation ns t ready

theorem runInvocation_of_readTemplate [Formats] [Addressing] {s read ready : σ}
    {invocation : Invocation} {loaded ns : Dict Value} {source : Option (String × Bytes)}
    (hload : (loadAll host .empty invocation.data).run s = (.ok loaded, read))
    (hdefine : defineAll loaded invocation.defines = .ok ns)
    (hread : (readTemplate host invocation.template).run read = (source, ready)) :
    (runInvocation host invocation).run s =
      match source with
      | none => (some (.error (.unreadableTemplate invocation.template)), ready)
      | some (name, source) =>
        match Template.compile source with
        | .error e => (some (.diagnostic (.ofCompileError name source e)), ready)
        | .ok t => (renderOut host invocation.output ns name source t).run ready := by
  rw [runInvocation, run_bind_of_run_eq hload]
  dsimp only
  rw [hdefine]
  dsimp only
  rw [run_bind_of_run_eq hread]
  cases source with
  | none =>
      rfl
  | some named =>
      cases hcompile : Template.compile named.2 with
      | error e =>
          simp only [hcompile]
          rfl
      | ok t =>
          simp only [hcompile]

variable {s ready : σ} {invocation : Invocation} {ns : Dict Value} {t : Template}

theorem Prepares.same [Formats] (hlawful : host.Lawful view)
    (h : Prepares host s invocation ns t ready) : view.Same s ready := by
  cases h with
  | intro hnames hreads hloads _ hread _ =>
      have hload := (DataFile.loadAll_eq_ok_iff host _ _ _ _ _).mpr ⟨_, hnames, hreads, hloads⟩
      exact (same_of_loadAll hlawful hload).trans (same_of_readTemplate hlawful hread)

theorem Prepares.run_eq [Formats] [Addressing] (h : Prepares host s invocation ns t ready) :
    ∃ name source, (runInvocation host invocation).run s =
      (renderOut host invocation.output ns name source t).run ready := by
  cases h with
  | @intro _ _ _ _ _ name source _ hnames hreads hloads happlies hread hcompile =>
      have hload := (DataFile.loadAll_eq_ok_iff host _ _ _ _ _).mpr ⟨_, hnames, hreads, hloads⟩
      have hdefine := (defineAll_eq_ok_iff _ _ _).mpr happlies
      refine ⟨name, source, ?_⟩
      rw [runInvocation_of_readTemplate hload hdefine hread]
      dsimp only
      rw [hcompile]

theorem prepares_or_stops [Formats] [Addressing] (hlawful : host.Lawful view) (s : σ)
    (invocation : Invocation) :
    (∃ ns t ready, Prepares host s invocation ns t ready) ∨
      ∃ complaint after, view.Same s after ∧
        (runInvocation host invocation).run s = (some complaint, after) := by
  rcases hload : (loadAll host .empty invocation.data).run s with ⟨e | loaded, read⟩
  · refine Or.inr ⟨.error e, read, same_of_loadAll hlawful hload, ?_⟩
    rw [runInvocation, run_bind_of_run_eq hload]
    rfl
  · have hloaded := same_of_loadAll hlawful hload
    cases hdefine : defineAll loaded invocation.defines with
    | error e =>
        refine Or.inr ⟨.error e, read, hloaded, ?_⟩
        rw [runInvocation, run_bind_of_run_eq hload]
        dsimp only
        rw [hdefine]
        rfl
    | ok ns =>
        rcases hread : (readTemplate host invocation.template).run read with ⟨source, ready⟩
        have hready := hloaded.trans (same_of_readTemplate hlawful hread)
        have hrun := runInvocation_of_readTemplate hload hdefine hread
        cases source with
        | none =>
            exact Or.inr ⟨_, ready, hready, hrun⟩
        | some named =>
            dsimp only at hrun
            cases hcompile : Template.compile named.2 with
            | error e =>
                rw [hcompile] at hrun
                exact Or.inr ⟨_, ready, hready, hrun⟩
            | ok t =>
                rcases (DataFile.loadAll_eq_ok_iff host _ _ _ _ _).mp hload with
                  ⟨files, hnames, hreads, hloads⟩
                exact Or.inl ⟨ns, t, ready, Prepares.intro hnames hreads hloads
                  ((defineAll_eq_ok_iff _ _ _).mp hdefine) hread hcompile⟩

/-!
# Writing the output
-/

theorem run_openOutput (hlawful : host.Lawful view) {output : Bytes}
    (haccepts : output ≠ Arguments.standard → host.Accepts view s output) :
    ∃ write opened, (openOutput host output).run s = (some write, opened) ∧
      ∀ bytes, ∃ written, (write bytes).run opened = (.ok (), written) ∧
        view.Delivers s written output bytes := by
  rw [openOutput]
  split
  · rename_i hstandard
    refine ⟨writeStandard host, s, rfl, ?_⟩
    intro bytes
    rcases hwrite : (host.writeOutput bytes).run s with ⟨done, written⟩
    refine ⟨written, ?_, fun _ => hlawful.writeOutput hwrite,
      fun hnamed => absurd hstandard hnamed⟩
    rw [writeStandard, run_bind_of_run_eq hwrite]
    rfl
  · rename_i hnamed
    rcases haccepts hnamed s (Host.View.Same.refl view s) with ⟨opened, hopen, hwrites⟩
    refine ⟨host.writeFile output, opened, run_bind_of_run_eq hopen _, ?_⟩
    intro bytes
    rcases hwrites bytes with ⟨written, hwrite⟩
    refine ⟨written, hwrite, fun hstandard => absurd hstandard hnamed, ?_⟩
    intro _ place hplace
    have hempty := hlawful.openFile hplace hopen
    have hopened : view.place? opened output = some place := by
      rw [hempty.place?]
      exact hplace
    exact hempty.trans (hlawful.writeFile hopened hempty.content?_self hwrite)

theorem run_renderOut [Addressing] (hlawful : host.Lawful view) {output : Bytes}
    (haccepts : output ≠ Arguments.standard → host.Accepts view s output) (ns : Dict Value)
    (name : String) (source : Bytes) (t : Template) :
    ∃ ending after, (renderOut host output ns name source t).run s = (ending, after) ∧
      view.Delivers s after output (t.script ns).bytes ∧
      (ending = none ↔ (t.script ns).ending = .ok ()) := by
  rcases run_openOutput hlawful haccepts with ⟨write, opened, hopen, hwrites⟩
  rcases hwrites (t.script ns).bytes with ⟨after, hwrite, hdelivers⟩
  have hready : ({} : Stream).step ≠ some 0 ∧ ({} : Stream).capacity = none := ⟨nofun, rfl⟩
  rcases (t.writes_iff Stream.unlimited hready ns _ _).mpr ⟨rfl, rfl⟩ with
    ⟨final, hrender, hcontent⟩
  have htaken : final.taken = (t.script ns).bytes := hcontent
  rw [renderOut, run_bind_of_run_eq hopen]
  dsimp only
  rw [hrender]
  dsimp only
  rw [htaken, run_bind_of_run_eq hwrite]
  cases hending : (t.script ns).ending with
  | error e =>
      rw [Script.outcome, hending]
      refine ⟨_, after, rfl, hdelivers, iff_of_false (Option.some_ne_none _) ?_⟩
      intro h
      cases h
  | ok done =>
      rw [Script.outcome, hending]
      exact ⟨none, after, rfl, hdelivers, iff_of_true rfl rfl⟩

theorem Prepares.delivers [Formats] [Addressing] (hlawful : host.Lawful view)
    (haccepts : invocation.output ≠ Arguments.standard → host.Accepts view s invocation.output)
    (h : Prepares host s invocation ns t ready) :
    ∃ ending after, (runInvocation host invocation).run s = (ending, after) ∧
      view.Delivers s after invocation.output (t.script ns).bytes ∧
      (ending = none ↔ (t.script ns).ending = .ok ()) := by
  have hsame := h.same hlawful
  rcases h.run_eq with ⟨name, source, hrun⟩
  have hready := fun hnamed => (haccepts hnamed).of_same hsame
  rcases run_renderOut hlawful hready ns name source t with
    ⟨ending, after, hrender, hdelivers, hending⟩
  exact ⟨ending, after, hrun.trans hrender, hsame.delivers hdelivers, hending⟩

end Run
end CommandLine

/-!
# The theorem
-/

/-- On any host that reads, opens and writes files as it should, a run whose output can be
opened and written to succeeds just if all data files load, all defines apply, the
template is read and compiles, and the rendering succeeds.  When only the rendering fails,
what was rendered before is the output; when something fails before that, the files and
the standard output are as they were. -/
theorem run_all_or_nothing [Formats] [Addressing] {σ π : Type} {host : Host (StateM σ)}
    {view : Host.View σ π} (hlawful : host.Lawful view) {s after : σ} {invocation : Invocation}
    {ending : Ending}
    (haccepts : invocation.output ≠ Arguments.standard → host.Accepts view s invocation.output)
    (hrun : (CommandLine.runInvocation host invocation).run s = (ending, after)) :
    (CommandLine.exitCode ending = 0 ↔
      ∃ ns t ready, CommandLine.Prepares host s invocation ns t ready ∧
        (t.script ns).ending = .ok ()) ∧
    (∀ ns t ready, CommandLine.Prepares host s invocation ns t ready →
      view.Delivers s after invocation.output (t.script ns).bytes ∧
        ∀ e, (t.script ns).ending = .error e → CommandLine.exitCode ending = 1) ∧
    ((¬ ∃ ns t ready, CommandLine.Prepares host s invocation ns t ready) →
      view.Same s after ∧ CommandLine.exitCode ending = 1) := by
  have hprepared : ∀ ns t ready, CommandLine.Prepares host s invocation ns t ready →
      view.Delivers s after invocation.output (t.script ns).bytes ∧
        (ending = none ↔ (t.script ns).ending = .ok ()) := by
    intro ns t ready h
    rcases h.delivers hlawful haccepts with ⟨_, _, hother, hdelivers, hending⟩
    rw [hrun] at hother
    cases hother
    exact ⟨hdelivers, hending⟩
  refine ⟨?_, ?_, ?_⟩
  · rw [CommandLine.exitCode_eq_zero_iff]
    constructor
    · intro hnone
      rcases CommandLine.prepares_or_stops hlawful s invocation with
        ⟨ns, t, ready, h⟩ | ⟨complaint, _, _, hstop⟩
      · exact ⟨ns, t, ready, h, (hprepared ns t ready h).right.mp hnone⟩
      · rw [hrun, hnone] at hstop
        cases hstop
    · intro h
      rcases h with ⟨ns, t, ready, h, hok⟩
      exact (hprepared ns t ready h).right.mpr hok
  · intro ns t ready h
    rcases hprepared ns t ready h with ⟨hdelivers, hending⟩
    refine ⟨hdelivers, ?_⟩
    intro e herror
    cases ending with
    | none =>
        have hok := hending.mp rfl
        rw [herror] at hok
        cases hok
    | some complaint =>
        rfl
  · intro hnot
    rcases (CommandLine.prepares_or_stops hlawful s invocation).resolve_left hnot with
      ⟨complaint, last, hsame, hstop⟩
    rw [hrun] at hstop
    cases hstop
    exact ⟨hsame, rfl⟩

def unfinishedJson : DataFile where
  name := Bytes.ofText "d.json"
  content := some (Bytes.ofText "\x7b\"a\": 1\x7d")

def unfinishedSource : Bytes :=
  Bytes.ofText "\x7b\x7ba\x7d\x7d and \x7b\x7bb\x7d\x7d\x7b\x7bc\x7d\x7d."

def unfinished : Directory where
  files := ⟨[(unfinishedJson.name, unfinishedJson.content.getD []),
    (Bytes.ofText "t", unfinishedSource)]⟩
  temporary := ⟨[(Bytes.ofText "out", Bytes.ofText "something longer")]⟩

def unfinishedRun : Invocation :=
  ⟨[Bytes.ofText "d.json"], [Bytes.ofText "b=2"], Bytes.ofText "../out", Bytes.ofText "./t"⟩

def unfinishedData : Dict Value :=
  ⟨[(Bytes.ofText "a", .int 1)]⟩

def unfinishedTemplate : Template :=
  ⟨[.subst (Bytes.ofText "a") ⟨1, 0, 5⟩, .text (Bytes.ofText " and ") ⟨1, 5, 10⟩,
    .subst (Bytes.ofText "b") ⟨1, 10, 15⟩, .subst (Bytes.ofText "c") ⟨1, 15, 20⟩,
    .text (Bytes.ofText ".") ⟨1, 20, 21⟩]⟩

/-- The rendering fails at the last path, and what the file above the directory has held
makes room for what there is. -/
theorem run_replaces_output_up_to_failure :
    ∃ ending after,
      (CommandLine.runInvocation Directory.host unfinishedRun).run unfinished =
        (ending, after) ∧
      CommandLine.exitCode ending = 1 ∧
      after.temporary.get? (Bytes.ofText "out") = some (Bytes.ofText "1 and 2") := by
  have hdata : (DataFile.load .empty unfinishedJson).1 = unfinishedData := by
    decide +kernel
  have hok : (DataFile.load .empty unfinishedJson).2.isOk = true := by
    decide +kernel
  have hload : DataFile.load .empty unfinishedJson = (unfinishedData, .ok ()) := by
    apply Prod.ext hdata
    cases hresult : (DataFile.load .empty unfinishedJson).2 with
    | ok done =>
        rfl
    | error e =>
        rw [hresult] at hok
        cases hok
  have hreads : DataFile.Reads Directory.host unfinished [unfinishedJson] unfinished :=
    DataFile.Reads.cons rfl (DataFile.Reads.nil _)
  have hloads : DataFile.LoadsInTurn .empty [unfinishedJson] unfinishedData :=
    DataFile.LoadsInTurn.cons hload (DataFile.LoadsInTurn.nil _)
  have happlies : Define.Applies unfinishedData unfinishedRun.defines
      (unfinishedData.put (Bytes.ofText "b") (.string (Bytes.ofText "2"))) :=
    Define.Applies.cons rfl (Define.Applies.nil _)
  have hcompile : Template.compile unfinishedSource = .ok unfinishedTemplate := by
    rfl
  have hprepares : CommandLine.Prepares Directory.host unfinished unfinishedRun _
      unfinishedTemplate unfinished :=
    CommandLine.Prepares.intro rfl hreads hloads happlies rfl hcompile
  have hplace : unfinished.place? unfinishedRun.output =
      some (.temporary (Bytes.ofText "out")) := by
    rfl
  have haccepts := Directory.accepts_of_place? hplace
  have hnamed : unfinishedRun.output ≠ Arguments.standard := by
    decide
  rcases hrun : (CommandLine.runInvocation Directory.host unfinishedRun).run unfinished with
    ⟨ending, after⟩
  rcases run_all_or_nothing Directory.lawful_host (fun _ => haccepts) hrun with
    ⟨_, hprepared, _⟩
  rcases hprepared _ _ _ hprepares with ⟨hdelivers, hexit⟩
  refine ⟨ending, after, rfl, hexit _ rfl, ?_⟩
  rw [← Directory.content?]
  exact (hdelivers.file hnamed _ hplace).content?_self

end Stencil
