import ProjectRoots.Proofs.Dependent.Accounts
import ProjectRoots.Proofs.Watch.Run
import ProjectRoots.Proofs.Watch.Touching

/- Batches that pass through a watcher make no difference to later judgements. The second phase of a
   batch may rename entities, and with every rename the coverage is taken anew. But names are all
   that is different then, and the rules may not look at names.

     1. `Matches.classify_eq` — workspaces that differ in names only are judged alike.
     2. `Retains.quietly`, `Retains.deliver`, `Retains.before`, `Retains.after` — a command that
        makes no commit and enters no url changes nothing but names, whatever a listener does
        meanwhile, as long as its own commands are of this kind.
     3. `classify_perform` — so any run of such commands leaves the judgement of every batch and the
        atlas as they were. -/
namespace ProjectRoots

/-- The rules do not look at the names of entities. -/
def Rules.Nameless (rules : Rules) : Prop :=
  ∀ a b : Entity, a.unnamed = b.unnamed → rules.counts a = rules.counts b

theorem nameless_ignored (ignored : Ignored) : Rules.Nameless { counts := ignored.counts } := by
  intro a b hsame
  obtain ⟨hid, hkind, _⟩ := Entity.unnamed_eq_iff.1 hsame
  funext property
  simp only [Ignored.counts, hid, hkind]

/-! ## Judgements -/

namespace Graph
variable {first second : Graph} (halike : first.Alike second) {rules : Rules}
  (hnameless : rules.Nameless)
include halike hnameless

theorem Alike.countsAt_iff (url : Url) : second.CountsAt rules url ↔ first.CountsAt rules url := by
  apply halike.exists_root_iff
  intro a b hsame root h
  rw [← hnameless a b hsame]
  exact h

theorem Alike.countsFor_iff (url : Url) :
    second.CountsFor rules url ↔ first.CountsFor rules url := by
  unfold CountsFor
  rw [halike.mountAround_eq]
  apply exists_congr
  intro place
  rw [halike.countsAt_iff hnameless]

end Graph

namespace Workspace

theorem Matches.classify_eq {first workspace : Workspace} (hfirst : first.UpToDate)
    (hmatches : first.Matches workspace) {rules : Rules} (hnameless : rules.Nameless)
    (batch : Batch) : workspace.classify rules batch = first.classify rules batch := by
  have htouches : workspace.touches rules = first.touches rules := by
    funext url
    rw [Bool.eq_iff_iff, hmatches.upToDate.touches_iff, hfirst.touches_iff,
      hmatches.alike.countsFor_iff hnameless]
  have hjudge : workspace.judge rules = first.judge rules := by
    funext event
    rw [judge, judge, htouches]
  rw [classify_eq_sup, classify_eq_sup, hjudge]

end Workspace

/-! ## Commands -/

mutual

/-- The command makes no commit and enters no url, nor does any that a listener installed by it will
ever give. -/
def Command.abstains : Command → Bool
  | .commit _ _ => false
  | .intern _ => false
  | .install onBefore onChanged => Command.abstainAll onBefore && Command.abstainAll onChanged
  | _ => true

/-- All the commands make no commit and enter no url. -/
def Command.abstainAll : List Command → Bool
  | [] => true
  | command :: rest => command.abstains && Command.abstainAll rest

end

theorem Command.abstainAll_iff {commands : List Command} :
    Command.abstainAll commands = true ↔ ∀ command ∈ commands, command.abstains = true := by
  induction commands with
  | nil => simp [Command.abstainAll]
  | cons command rest ih => simp [Command.abstainAll, ih]

/-- The commands of the listener make no commit and enter no url. -/
def Listener.Abstains (listener : Listener) : Prop :=
  ∀ notification, ∀ command ∈ listener.script notification, command.abstains = true

theorem Listener.abstains_of_install {onBefore onChanged : List Command}
    (habstains : (Command.install onBefore onChanged).abstains = true) :
    Listener.Abstains ⟨onBefore, onChanged⟩ := by
  simp only [Command.abstains, Bool.and_eq_true, Command.abstainAll_iff] at habstains
  intro notification
  cases notification with
  | beforeChanged => exact habstains.1
  | changed impact => exact habstains.2

namespace Watcher

/-- Of what judgements depend on, nothing but names is different, and the listener makes no
commit and enters no url. -/
structure Retains (first watcher : Watcher) : Prop where
  workspace : first.project.workspace.Matches watcher.project.workspace
  rules_eq : watcher.rules = first.rules
  listener : ∀ listener, watcher.listener = some listener → listener.Abstains

section
variable {first watcher : Watcher} (hretains : first.Retains watcher) (caller : Thread)
include hretains

theorem Retains.quietly {command : Command} (habstains : command.abstains = true) :
    first.Retains (watcher.quietly caller command).1 := by
  obtain ⟨hworkspace, hrules, hlistener⟩ := hretains
  cases command with
  | commit base changes => cases habstains
  | intern raw => cases habstains
  | install onBefore onChanged =>
    refine ⟨hworkspace, hrules, fun listener hinstalled => ?_⟩
    rw [← Option.some.inj hinstalled]
    exact Listener.abstains_of_install habstains
  | uninstall => exact ⟨hworkspace, hrules, nofun⟩
  | _ => exact ⟨hworkspace, hrules, hlistener⟩

theorem Retains.deliver (notification : Notification) :
    first.Retains (watcher.deliver caller notification) := by
  -- What a delivery adds to the log, and that it is going on, has no part in judgements.
  apply relates_deliver watcher caller (fun watcher next => first.Retains watcher →
    first.Retains next) (fun _ h => h) (fun hab hbc h => hbc (hab h))
    (fun _ _ _ h => ⟨h.workspace, h.rules_eq, h.listener⟩) _ hretains
  intro listener hlistener command hmem _ h
  exact h.quietly caller (hretains.listener listener hlistener notification command hmem)

theorem Retains.before (batch : Batch) : first.Retains (watcher.before caller batch).1 := by
  cases hdispatch : watcher.dispatch with
  | dispatching =>
    rw [before_of_dispatching hdispatch]
    exact hretains
  | idle =>
    have hjudged : first.Retains (watcher.judged caller batch) :=
      ⟨hretains.workspace, hretains.rules_eq, hretains.listener⟩
    rw [before_of_idle hdispatch]
    split
    · exact hjudged
    · exact hjudged.deliver caller .beforeChanged

theorem Retains.settled (batch : Batch) : first.Retains (watcher.settled caller batch) := by
  unfold Watcher.settled settle
  split
  · exact ⟨hretains.workspace, hretains.rules_eq, hretains.listener⟩
  · exact ⟨hretains.workspace.round _ _, hretains.rules_eq, hretains.listener⟩

theorem Retains.after (batch : Batch) : first.Retains (watcher.after caller batch).1 := by
  cases hdispatch : watcher.dispatch with
  | dispatching =>
    rw [after_of_dispatching hdispatch]
    exact ⟨hretains.workspace, hretains.rules_eq, hretains.listener⟩
  | idle =>
    have hsettled := hretains.settled caller batch
    rw [after_of_idle hdispatch]
    split
    · exact hsettled
    · exact hsettled.deliver caller _

omit caller in
theorem Retains.step {step : Step} (habstains : step.command.abstains = true) :
    first.Retains (watcher.step step) := by
  obtain ⟨caller, command⟩ := step
  cases command with
  | before batch => exact hretains.before caller batch
  | after batch => exact hretains.after caller batch
  | process batch => exact (hretains.before caller batch).after caller batch
  | _ =>
    rw [step_of_calm watcher rfl]
    exact hretains.quietly caller habstains

omit caller in
theorem Retains.perform {steps : List Step}
    (habstains : ∀ step ∈ steps, step.command.abstains = true) :
    first.Retains (watcher.perform steps) := by
  apply relates_perform (fun watcher next => first.Retains watcher → first.Retains next)
    (fun _ h => h) (fun hab hbc h => hbc (hab h)) _ watcher hretains
  exact fun step hmem _ h => h.step (habstains step hmem)

end

theorem classify_perform {watcher : Watcher} (hupToDate : watcher.project.workspace.UpToDate)
    (hnameless : watcher.rules.Nameless)
    (hlistener : ∀ listener, watcher.listener = some listener → listener.Abstains)
    {steps : List Step} (habstains : ∀ step ∈ steps, step.command.abstains = true) :
    (∀ batch, (watcher.perform steps).classify batch = watcher.classify batch) ∧
      (watcher.perform steps).project.workspace.atlas = watcher.project.workspace.atlas := by
  have hself : watcher.Retains watcher := ⟨hupToDate.matches_self, rfl, hlistener⟩
  have hretains := hself.perform habstains
  refine ⟨fun batch => ?_, hretains.workspace.atlas_eq⟩
  unfold classify
  rw [hretains.rules_eq]
  exact hretains.workspace.classify_eq hupToDate hnameless batch

/-- A watcher of a module with a descriptor, with the permit at the first thread. Its listener
begins a batch of its own. -/
def titledSample : Watcher where
  rules := { counts := Ignored.counts {} }
  project :=
    { workspace := Workspace.ofGraph (Graph.ofList
        [⟨"module:app", .module, "app", [⟨"content_root", "/proj/app", false⟩]⟩])
      dependents := [{ path := "/proj/app.iml".toList, entity := some "module:app" }] }
  permit := ⟨some 1⟩
  listener := some { onChanged := [.process [.delete "/proj/app"]] }

/-- The directory and the descriptor of the module are renamed. -/
def renamingSteps : List Step :=
  [⟨1, .process [.rename "/proj/app" "/proj/web" true,
      .rename "/proj/app.iml" "/proj/web.iml" false]⟩,
   ⟨2, .process [.delete "/proj/app"]⟩]

/-- The module gets another name, and what the removal of its root is judged to be stays the
same. -/
theorem classify_perform_renaming :
    (titledSample.project.workspace.UpToDate ∧ titledSample.rules.Nameless ∧
      (∀ listener, titledSample.listener = some listener → listener.Abstains) ∧
      ∀ step ∈ renamingSteps, step.command.abstains = true) ∧
    ((∀ batch, (titledSample.perform renamingSteps).classify batch = titledSample.classify batch) ∧
      (titledSample.perform renamingSteps).project.workspace.atlas =
        titledSample.project.workspace.atlas) ∧
    (titledSample.perform renamingSteps).project.workspace.current.graph.entities.map Entity.name =
      ["web"] ∧
    titledSample.classify [.delete "/proj/app"] = .removed := by
  have hupToDate : titledSample.project.workspace.UpToDate := Workspace.upToDate_load _ .refl
  have hnameless : titledSample.rules.Nameless := nameless_ignored {}
  have hlistener : ∀ listener, titledSample.listener = some listener → listener.Abstains := by
    intro listener hlistener
    rw [← Option.some.inj hlistener]
    exact Listener.abstains_of_install (by decide)
  have habstains : ∀ step ∈ renamingSteps, step.command.abstains = true := by decide
  exact ⟨⟨hupToDate, hnameless, hlistener, habstains⟩,
    classify_perform hupToDate hnameless hlistener habstains, by decide +kernel, by decide +kernel⟩

end Watcher

end ProjectRoots
