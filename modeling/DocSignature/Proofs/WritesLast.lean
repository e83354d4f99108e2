import DocSignature.Proofs.AcceptedSettings
import DocSignature.Proofs.BatchRun
import DocSignature.Run

/-!
# A run writes last

A run only looks at the files until all its sources are read and converted and it is known where the
results go. A run that ends before that leaves the files as they were, and whatever changes in them
comes from the acts of the run.
-/

namespace DocSignature.Run

/-! ## Acts -/

/-- Holds of an act that may change the files. -/
def Act.isWrite : Act → Bool
  | .read _ | .convert _ => false
  | .makeDirectory _ | .write _ => true

/-- The files after an act, also after one that is refused halfway. -/
def Act.effect (current : List String) (tree : FileTree) (act : Act) : FileTree :=
  ((act.change current).run.run tree).2

theorem foldl_effect_of_looks (current : List String) (tree : FileTree) {looks : List Act}
    (h : ∀ act ∈ looks, act.isWrite = false) : looks.foldl (Act.effect current) tree = tree := by
  induction looks with
  | nil => rfl
  | cons act rest ih =>
    have hact : act.effect current tree = tree := by
      have hlook := h act List.mem_cons_self
      cases act with
      | read path => rfl
      | convert sources => rfl
      | makeDirectory path => cases hlook
      | write saving => cases hlook
    rw [List.foldl_cons, hact]
    exact ih fun a ha => h a (List.mem_cons_of_mem _ ha)

/-- The disk after some acts. -/
def Disk.after (current : List String) (disk : Disk) (acts : List Act) : Disk :=
  ⟨acts.foldl (Act.effect current) disk.tree, disk.acts ++ acts⟩

theorem Disk.after_nil (current : List String) (disk : Disk) : disk.after current [] = disk := by
  simp [Disk.after]

theorem Disk.after_append (current : List String) (disk : Disk) (first second : List Act) :
    disk.after current (first ++ second) = (disk.after current first).after current second := by
  simp [Disk.after]

theorem Disk.after_looks (current : List String) (disk : Disk) {looks : List Act}
    (h : ∀ act ∈ looks, act.isWrite = false) :
    disk.after current looks = ⟨disk.tree, disk.acts ++ looks⟩ := by
  rw [Disk.after, foldl_effect_of_looks current disk.tree h]

/-! ## Parts of a run -/

namespace Action

theorem on_bind_of_ok {α β : Type} {a : Action α} {disk disk' : Disk} {x : α}
    (h : a.on disk = (.ok x, disk')) (f : α → Action β) : (a >>= f).on disk = (f x).on disk' := by
  change (ExceptT.bindCont f (a.on disk).1).run (a.on disk).2 = _
  rw [h]
  rfl

theorem on_bind_of_error {α β : Type} {a : Action α} {disk disk' : Disk} {exit : Exit}
    (h : a.on disk = (.error exit, disk')) (f : α → Action β) :
    (a >>= f).on disk = (.error exit, disk') := by
  change (ExceptT.bindCont f (a.on disk).1).run (a.on disk).2 = _
  rw [h]
  rfl

theorem on_ofExcept {α : Type} (x : Except Exit α) (disk : Disk) :
    Action.on (MonadExcept.ofExcept x) disk = (x, disk) := by
  cases x <;> rfl

end Action

/-- Holds of an exit that a run may take before it comes to writing. -/
def Exit.isEarly : Exit → Bool
  | .decided (.planned plan) => plan.exitCode = 2
  | .decided _ => true
  | .failed (.save _) => false
  | .failed _ => true

theorem isEarly_refuse (json : Bool) (message : String) (file : Option String) :
    (refuse json message file).isEarly = true := by
  cases json <;> rfl

/-- The ending of a part that only looks: an early exit, or a result with what was done for it. -/
inductive Looked {α : Type} (Q : α → List Act → Prop) (looks : List Act) :
    Except Exit α → Prop where
  | ok {x : α} (h : Q x looks) : Looked Q looks (.ok x)
  | error {exit : Exit} (h : exit.isEarly = true) : Looked Q looks (.error exit)

theorem Looked.bind {α β : Type} {Q : α → List Act → Prop} {R : β → List Act → Prop}
    {looks : List Act} {x : Except Exit α} {f : α → Except Exit β} (hx : Looked Q looks x)
    (hf : ∀ a, Q a looks → Looked R looks (f a)) : Looked R looks (x >>= f) := by
  cases hx with
  | ok h => exact hf _ h
  | error h => exact .error h

/-- Where the files are `tree`, the part only looks at them, and `Q` holds of its result and of what
it did. -/
def Looks {α : Type} (tree : FileTree) (a : Action α) (Q : α → List Act → Prop) : Prop :=
  ∀ acts, ∃ looks ending, (∀ act ∈ looks, act.isWrite = false) ∧
    a.on ⟨tree, acts⟩ = (ending, ⟨tree, acts ++ looks⟩) ∧ Looked Q looks ending

namespace Looks
variable {α β : Type} {tree : FileTree} {Q : α → List Act → Prop}

theorem ofExcept {x : Except Exit α} (h : Looked Q [] x) :
    Looks tree (MonadExcept.ofExcept x) Q := fun acts =>
  ⟨[], x, by simp, by rw [Action.on_ofExcept, List.append_nil], h⟩

theorem pure {x : α} (h : Q x []) : Looks tree (Pure.pure x) Q :=
  ofExcept (.ok h)

theorem throw {exit : Exit} (h : exit.isEarly = true) :
    Looks tree (MonadExcept.throw exit : Action α) Q :=
  ofExcept (.error h)

theorem note {act : Act} (h : act.isWrite = false) :
    Looks tree (Run.note act) fun _ looks => looks = [act] := fun acts =>
  ⟨[act], .ok (), by simpa using h, rfl, .ok rfl⟩

theorem get : Looks tree (MonadState.get : Action Disk) fun disk looks =>
    disk.tree = tree ∧ looks = [] := fun acts =>
  ⟨[], .ok ⟨tree, acts⟩, by simp, by rw [List.append_nil]; rfl, .ok ⟨rfl, rfl⟩⟩

/-- Two parts in turn. What the second one has to establish is about the acts of both. -/
theorem bind {R : β → List Act → Prop} {a : Action α} {f : α → Action β} (ha : Looks tree a Q)
    (hf : ∀ x looks, Q x looks → Looks tree (f x) fun y more => R y (looks ++ more)) :
    Looks tree (a >>= f) R := by
  intro acts
  obtain ⟨looks, ending, hlooks, hon, hending⟩ := ha acts
  cases hending with
  | error h => exact ⟨looks, _, hlooks, Action.on_bind_of_error hon f, .error h⟩
  | @ok x hx =>
    obtain ⟨more, ending, hmore, hon', hending⟩ := hf x looks hx (acts ++ looks)
    refine ⟨looks ++ more, ending, ?_, ?_, ?_⟩
    · intro act hact
      rcases List.mem_append.1 hact with hact | hact
      · exact hlooks act hact
      · exact hmore act hact
    · rw [Action.on_bind_of_ok hon, hon', List.append_assoc]
    · cases hending with
      | ok h => exact .ok h
      | error h => exact .error h

end Looks

/-! ## Reading -/

/-- Holds of a source that was read from a path as the files were at the start. -/
structure ReadFrom (w : World) (acts : List Act) (path : PathName) (source : SourceFile) :
    Prop where
  wasRead : .read path ∈ acts
  label : source.path = path.text
  text : w.tree.text w.current path = .ok source.text.toList

theorem ReadFrom.mono {w : World} {acts acts' : List Act} {path : PathName} {source : SourceFile}
    (h : ReadFrom w acts path source) (hsub : acts ⊆ acts') : ReadFrom w acts' path source :=
  { h with wasRead := hsub h.wasRead }

theorem looks_readSource (w : World) (json : Bool) (path : PathName) :
    Looks w.tree (readSource w.current json path) fun source looks =>
      ReadFrom w looks path source := by
  unfold readSource
  refine (Looks.note rfl).bind fun _ looks hlooks => Looks.get.bind fun disk none hdisk => ?_
  obtain ⟨htree, rfl⟩ := hdisk
  rw [htree]
  split
  · rename_i cs hcs
    exact .pure ⟨by simp [hlooks], rfl, by simpa using hcs⟩
  · exact .throw (isEarly_refuse _ _ _)
  · exact .throw rfl
  · exact .throw rfl

theorem looks_sources (w : World) (json : Bool) (paths : List PathName) :
    Looks w.tree (paths.mapM (readSource w.current json)) fun sources looks =>
      List.Forall₂ (ReadFrom w looks) paths sources := by
  induction paths with
  | nil => exact .pure .nil
  | cons path rest ih =>
    rw [List.mapM_cons]
    refine (looks_readSource w json path).bind fun source first hfirst =>
      ih.bind fun sources more hmore => .pure ?_
    exact .cons (hfirst.mono (by simp)) (hmore.imp fun _ _ h => h.mono (by simp))

theorem looked_invocationOf (arguments : List String) :
    Looked (fun inv _ => CommandLine.parse arguments = .ok inv) [] (invocationOf arguments) := by
  unfold invocationOf
  split
  · rename_i inv hinv
    exact .ok hinv
  · exact .error rfl
  · exact .error rfl

theorem batchSize_pos_of_load {tree : FileTree} {current : List String} {path : PathName}
    {config : Config} (h : Config.load tree current path = .ok config) : 1 ≤ config.batchSize := by
  obtain ⟨json, hjson⟩ : ∃ json, Config.ofJson json = .ok config := by
    unfold Config.load at h
    split at h
    · cases h
    · cases h
    · cases h
    · split at h
      · exact ⟨_, h⟩
      · split at h <;> cases h
  by_cases hsupported : Config.Supported json
  · rw [Config.ofJson_of_supported hsupported] at hjson
    exact (Config.faithful_of_readKeys hjson).batchSize_pos
  · obtain ⟨problem, hproblem⟩ := Config.ofJson_of_not_supported hsupported
    cases hproblem.symm.trans hjson

theorem looks_settings (tree : FileTree) (current : List String) (inv : Invocation) :
    Looks tree (settings current inv) fun config _ => 1 ≤ config.batchSize := by
  unfold settings
  split
  · exact .pure (by decide)
  · exact .throw rfl
  · refine (Looks.note rfl).bind fun _ _ _ => Looks.get.bind fun disk _ _ => ?_
    split
    · rename_i config hconfig
      exact .pure (batchSize_pos_of_load hconfig)
    · exact .throw (isEarly_refuse _ _ _)
    · exact .throw rfl

theorem looked_valueOf {α : Type} (flag : CommandLine.Flag) (given : Option (Given α)) :
    Looked (fun _ _ => True) [] (valueOf flag given) := by
  unfold valueOf
  split
  · exact .ok trivial
  · exact .ok trivial
  · exact .error rfl

theorem looked_countOf (flag : CommandLine.Flag) (tooSmall : CommandLine.UsageError)
    (given : Option (Given Int)) :
    Looked (fun count _ => ∀ n ∈ count, 1 ≤ n) [] (countOf flag tooSmall given) := by
  match given with
  | none => exact .ok (by simp)
  | some .dropped => exact .error rfl
  | some (.value n) =>
    simp only [countOf, valueOf]
    split
    · exact .error rfl
    · refine .ok fun m hm => ?_
      cases hm
      omega

theorem looked_adjust (inv : Invocation) {config : Config} (hconfig : 1 ≤ config.batchSize) :
    Looked (fun adjusted _ => 1 ≤ adjusted.batchSize) [] (adjust inv config) := by
  unfold adjust
  refine (looked_valueOf _ _).bind fun language _ => (looked_countOf _ _ _).bind fun workers _ =>
    (looked_countOf _ _ _).bind fun size hsize => .ok ?_
  cases size with
  | none => exact hconfig
  | some n => exact hsize n rfl

theorem looked_workersOf (surroundings : Config.Surroundings) (inv : Invocation)
    (config : Config) : Looked (fun _ _ => True) [] (workersOf surroundings inv config) := by
  unfold workersOf
  cases config.workers surroundings with
  | ok n => exact .ok trivial
  | error problem => exact .error (isEarly_refuse _ _ _)

/-! ## Everything before the first write -/

/-- Holds of a task once everything it needs is read. -/
structure Prepared (w : World) (arguments : List String) (acts : List Act) (task : Task) :
    Prop where
  parsed : CommandLine.parse arguments = .ok task.invocation
  sources : List.Forall₂ (ReadFrom w acts) task.invocation.sources task.sources
  batchSize_pos : 1 ≤ task.config.batchSize

/-- Holds of a product once everything is read and converted and it is known where it goes: each
source of the command line was read, and each has its result. -/
structure Ready (w : World) (arguments : List String) (acts : List Act) (product : Product) :
    Prop where
  prepared : Prepared w arguments acts product.task
  wasConverted : .convert product.task.sources ∈ acts
  report : Batch.convertAll product.task.log product.task.job product.task.sources =
    .ok product.report
  results : product.report.results.length = product.task.sources.length
  paths : targets w.resolve product.task = .ok product.paths

theorem Prepared.mono {w : World} {arguments : List String} {acts acts' : List Act} {task : Task}
    (h : Prepared w arguments acts task) (hsub : acts ⊆ acts') :
    Prepared w arguments acts' task :=
  { h with sources := h.sources.imp fun _ _ hread => hread.mono hsub }

theorem Ready.mono {w : World} {arguments : List String} {acts acts' : List Act}
    {product : Product} (h : Ready w arguments acts product) (hsub : acts ⊆ acts') :
    Ready w arguments acts' product :=
  { h with prepared := h.prepared.mono hsub, wasConverted := hsub h.wasConverted }

theorem looks_prepare (w : World) (arguments : List String) :
    Looks w.tree (prepare w.current w.surroundings arguments) fun task looks =>
      Prepared w arguments looks task := by
  unfold prepare
  refine (Looks.ofExcept (looked_invocationOf arguments)).bind fun inv _ hinv =>
    (looks_settings w.tree w.current inv).bind fun config _ hconfig =>
    (Looks.ofExcept (looked_adjust inv hconfig)).bind fun config _ hconfig =>
    (looks_sources w inv.json inv.sources).bind fun sources _ hsources =>
    (Looks.ofExcept (looked_workersOf w.surroundings inv config)).bind fun workers _ _ => .pure ?_
  exact ⟨hinv, hsources.imp fun _ _ h => h.mono fun act hact => by simp [hact], hconfig⟩

theorem looks_convertSources (tree : FileTree) (task : Task) :
    Looks tree (convertSources task) fun report looks =>
      .convert task.sources ∈ looks ∧
        Batch.convertAll task.log task.job task.sources = .ok report := by
  unfold convertSources
  refine (Looks.note rfl).bind fun _ looks hlooks => ?_
  split
  · rename_i report hreport
    exact .pure ⟨by simp [hlooks], hreport⟩
  · exact .throw rfl

theorem looked_targets (resolve : PathName → List String) (task : Task) :
    Looked (fun paths _ => targets resolve task = .ok paths) [] (targets resolve task) := by
  cases h : targets resolve task with
  | ok paths => exact .ok rfl
  | error exit =>
    refine .error ?_
    unfold targets at h
    split at h
    · cases h
    · cases h
      rfl
    · cases h

/-- A conversion that comes to its end gives each source its result. -/
theorem length_results {task : Task} (hsize : 1 ≤ task.config.batchSize) {report : BatchReport}
    (h : Batch.convertAll task.log task.job task.sources = .ok report) :
    report.results.length = task.sources.length := by
  have hpos : 0 < task.job.size := by
    refine Batch.Job.size_pos fun n hn => ?_
    cases hn
    omega
  by_cases hapart : 1 < task.job.workers ∧ 1 < (task.job.batches task.sources).length
  · obtain ⟨r, hr, hlength, -⟩ := Batch.convertAll_apart task.log hpos hapart.1 hapart.2
    cases h.symm.trans hr
    exact hlength
  · rcases Batch.convertAll_in_turn task.log hpos hapart with ⟨r, hr, hmap⟩ | ⟨e, he, -⟩
    · cases h.symm.trans hr
      simpa using congrArg List.length hmap
    · cases h.symm.trans he

theorem looks_produce (w : World) (arguments : List String) :
    Looks w.tree (produce w.current w.resolve w.surroundings arguments) fun product looks =>
      Ready w arguments looks product := by
  unfold produce
  refine (looks_prepare w arguments).bind fun task _ htask =>
    (looks_convertSources w.tree task).bind fun report _ hreport =>
    (Looks.ofExcept (looked_targets w.resolve task)).bind fun paths _ hpaths => .pure ?_
  exact {
    prepared := htask.mono (by simp)
    wasConverted := by simp [hreport.1]
    report := hreport.2
    results := length_results htask.batchSize_pos hreport.2
    paths := hpaths }

/-! ## Writing -/

/-- One act: the files are changed as the act changes them, whether it is refused or not. -/
theorem carryOut_cases (current : List String) (act : Act) (disk : Disk) :
    (carryOut current act).on disk = (.ok (), disk.after current [act]) ∨
      ∃ problem, (carryOut current act).on disk =
        (.error (.failed (.save problem)), disk.after current [act]) := by
  -- the act is put down before it is tried, so that the disk is the same in both cases
  have hon : (carryOut current act).on disk =
      Action.on (MonadExcept.ofExcept (((act.change current).run.run disk.tree).1.mapError
        fun problem => Exit.failed (.save problem))) (disk.after current [act]) := rfl
  rw [hon, Action.on_ofExcept]
  cases ((act.change current).run.run disk.tree).1 with
  | ok => exact .inl rfl
  | error problem => exact .inr ⟨problem, rfl⟩

/-- Many acts: all of them are done, or those up to one that is refused. -/
theorem forM_carryOut_cases (current : List String) (acts : List Act) (disk : Disk) :
    (acts.forM (carryOut current)).on disk = (.ok (), disk.after current acts) ∨
      ∃ done problem, done <+: acts ∧ done ≠ [] ∧ (acts.forM (carryOut current)).on disk =
        (.error (.failed (.save problem)), disk.after current done) := by
  induction acts generalizing disk with
  | nil => exact .inl (by rw [Disk.after_nil]; rfl)
  | cons act rest ih =>
    change (carryOut current act >>= fun _ => rest.forM (carryOut current)).on disk = _ ∨
      ∃ done problem, _ ∧ _ ∧
        (carryOut current act >>= fun _ => rest.forM (carryOut current)).on disk = _
    rcases carryOut_cases current act disk with hact | ⟨problem, hact⟩
    · rw [Action.on_bind_of_ok hact]
      rcases ih (disk.after current [act]) with hrest | ⟨done, problem, hdone, -, hrest⟩
      · exact .inl (by rw [hrest, ← Disk.after_append]; rfl)
      · refine .inr ⟨act :: done, problem, List.cons_prefix_cons.2 ⟨rfl, hdone⟩, by simp, ?_⟩
        rw [hrest, ← Disk.after_append]
        rfl
    · refine .inr ⟨[act], problem, by simp, by simp, ?_⟩
      rw [Action.on_bind_of_error hact]

/-! ## Whole runs -/

/-- What a run can do, and how it ends then. -/
inductive Went (w : World) (arguments : List String) :
    List Act → Except Failure Decision → Prop where
  /-- The run ends before it comes to writing. -/
  | stopped {looks : List Act} {exit : Exit} {ending : Except Failure Decision}
      (hlooks : ∀ act ∈ looks, act.isWrite = false) (hexit : exit.isEarly = true)
      (hending : exit.ending = ending) : Went w arguments looks ending
  /-- Writing is refused. -/
  | broken {looks done : List Act} {product : Product} {problem : SaveProblem}
      (hlooks : ∀ act ∈ looks, act.isWrite = false) (hready : Ready w arguments looks product)
      (hdone : done <+: product.acts) (hne : done ≠ []) :
      Went w arguments (looks ++ done) (.error (.save problem))
  /-- All results are written. -/
  | finished {looks : List Act} {product : Product}
      (hlooks : ∀ act ∈ looks, act.isWrite = false) (hready : Ready w arguments looks product) :
      Went w arguments (looks ++ product.acts) (.ok (.planned product.plan))

theorem perform_went (w : World) (arguments : List String) :
    ∃ acts, (perform w arguments).disk = Disk.after w.current ⟨w.tree, []⟩ acts ∧
      Went w arguments acts (perform w arguments).ending := by
  obtain ⟨looks, ending, hlooks, hon, hending⟩ := looks_produce w arguments []
  -- what was done up to here left the files alone, so it can be counted among the acts
  rw [← Disk.after_looks w.current ⟨w.tree, []⟩ hlooks] at hon
  unfold perform course
  cases hending with
  | error hexit =>
    rw [Action.on_bind_of_error hon]
    exact ⟨looks, rfl, .stopped hlooks hexit rfl⟩
  | @ok product hready =>
    rw [Action.on_bind_of_ok hon]
    rcases forM_carryOut_cases w.current product.acts (Disk.after w.current ⟨w.tree, []⟩ looks)
      with hwrites | ⟨done, problem, hdone, hne, hwrites⟩
    · rw [Action.on_bind_of_ok hwrites, ← Disk.after_append]
      exact ⟨_, rfl, .finished hlooks hready⟩
    · rw [Action.on_bind_of_error hwrites, ← Disk.after_append]
      exact ⟨_, rfl, .broken hlooks hready hdone hne⟩

theorem isWrite_of_mem_acts {product : Product} {act : Act} (h : act ∈ product.acts) :
    act.isWrite = true := by
  obtain ⟨saving, -, hact⟩ := List.mem_flatMap.1 h
  rcases List.mem_pair.1 hact with rfl | rfl <;> rfl

/-- Without an output directory there is nothing to be done. -/
theorem Ready.acts_eq_nil {w : World} {arguments : List String} {acts : List Act}
    {product : Product} (h : Ready w arguments acts product)
    (hout : product.task.invocation.outputDir = none) : product.acts = [] := by
  have hpaths := h.paths
  rw [targets, hout] at hpaths
  cases product with
  | mk task report paths =>
    cases hpaths
    rfl

theorem exitCode_plan_ne (product : Product) : product.plan.exitCode ≠ 2 := by
  unfold Product.plan
  dsimp only
  split <;> decide

/-- Looks come before the first act that is not one. -/
theorem looks_subset {looks writes before after : List Act} {act : Act}
    (hlooks : ∀ a ∈ looks, a.isWrite = false) (hact : act.isWrite = true)
    (h : looks ++ writes = before ++ act :: after) : looks ⊆ before := by
  rcases List.append_eq_append_iff.1 h with ⟨more, rfl, -⟩ | ⟨more, rfl, hmore⟩
  · exact List.subset_append_left _ _
  · cases more with
    | nil => simp
    | cons a more =>
      obtain ⟨rfl, -⟩ := List.cons.inj hmore
      exact absurd hact (by simp [hlooks act])

namespace Went
variable {w : World} {arguments : List String} {acts : List Act}

theorem looks_of_refused {decision : Decision} (h : Went w arguments acts (.ok decision))
    (hcode : decision.exitCode = 2) : ∀ act ∈ acts, act.isWrite = false := by
  cases h with
  | stopped hlooks => exact hlooks
  | finished => exact absurd hcode (exitCode_plan_ne _)

theorem looks_of_failed {failure : Failure} (h : Went w arguments acts (.error failure))
    (hfailure : ∀ problem, failure ≠ .save problem) : ∀ act ∈ acts, act.isWrite = false := by
  cases h with
  | stopped hlooks => exact hlooks
  | broken => exact absurd rfl (hfailure _)

theorem exists_write {problem : SaveProblem} (h : Went w arguments acts (.error (.save problem))) :
    ∃ act ∈ acts, act.isWrite = true := by
  cases h with
  | @stopped _ exit _ _ hexit hending =>
    cases exit with
    | decided decision => cases hending
    | failed failure =>
      cases hending
      cases hexit
  | broken _ _ hdone hne =>
    obtain ⟨act, rest, rfl⟩ := List.exists_cons_of_ne_nil hne
    exact ⟨act, by simp, isWrite_of_mem_acts (hdone.subset List.mem_cons_self)⟩

theorem ready_before {ending : Except Failure Decision} (h : Went w arguments acts ending)
    {before after : List Act} {act : Act} (hacts : acts = before ++ act :: after)
    (hact : act.isWrite = true) : ∃ product, Ready w arguments before product := by
  cases h with
  | stopped hlooks => exact absurd hact (by simp [hlooks act, hacts])
  | broken hlooks hready => exact ⟨_, hready.mono (looks_subset hlooks hact hacts)⟩
  | finished hlooks hready => exact ⟨_, hready.mono (looks_subset hlooks hact hacts)⟩

theorem looks_of_no_directory {ending : Except Failure Decision} (h : Went w arguments acts ending)
    (hout : ∀ inv, CommandLine.parse arguments = .ok inv → inv.outputDir = none) :
    ∀ act ∈ acts, act.isWrite = false := by
  cases h with
  | stopped hlooks => exact hlooks
  | broken _ hready hdone hne =>
    rw [hready.acts_eq_nil (hout _ hready.prepared.parsed)] at hdone
    exact absurd (List.prefix_nil.1 hdone) hne
  | finished hlooks hready =>
    rwa [hready.acts_eq_nil (hout _ hready.prepared.parsed), List.append_nil]

theorem all_written {plan : Plan} (h : Went w arguments acts (.ok (.planned plan)))
    (hcode : plan.exitCode ≠ 2) :
    ∃ looks product, Ready w arguments looks product ∧ plan = product.plan ∧
      (∀ act ∈ looks, act.isWrite = false) ∧ acts = looks ++ product.acts := by
  cases h with
  | @stopped _ exit _ _ hexit hending =>
    cases exit with
    | decided decision =>
      cases hending
      exact absurd (of_decide_eq_true hexit) hcode
    | failed failure => cases hending
  | finished hlooks hready => exact ⟨_, _, hready, rfl, hlooks, rfl⟩

end Went

/-- The files are as they were, and nothing was tried on them. -/
def Untouched (w : World) (outcome : Outcome) : Prop :=
  outcome.disk.tree = w.tree ∧ ∀ act ∈ outcome.disk.acts, act.isWrite = false

/-- What holds of a run that writes last. -/
structure WritesLast (w : World) (arguments : List String) (outcome : Outcome) : Prop where
  /-- A run that is refused, by its arguments, its settings, its surroundings or its sources. -/
  refused : ∀ decision, outcome.ending = .ok decision → decision.exitCode = 2 → Untouched w outcome
  /-- A run that fails with anything but a write. -/
  failed : ∀ failure, outcome.ending = .error failure → (∀ problem, failure ≠ .save problem) →
    Untouched w outcome
  /-- Only a write that was tried can fail as one. -/
  tried : ∀ problem, outcome.ending = .error (.save problem) →
    ∃ act ∈ outcome.disk.acts, act.isWrite = true
  /-- Before any write all sources were read and converted. -/
  readyFirst : ∀ before act after, outcome.disk.acts = before ++ act :: after →
    act.isWrite = true → ∃ product, Ready w arguments before product
  withoutDirectory : (∀ inv, CommandLine.parse arguments = .ok inv → inv.outputDir = none) →
    Untouched w outcome
  /-- A run that comes to its end has written all results, and nothing else. -/
  written : ∀ plan, outcome.ending = .ok (.planned plan) → plan.exitCode ≠ 2 →
    ∃ looks product, Ready w arguments looks product ∧ plan = product.plan ∧
      (∀ act ∈ looks, act.isWrite = false) ∧ outcome.disk.acts = looks ++ product.acts
  /-- The files change by the acts of the run alone. -/
  accounted : outcome.disk.tree = outcome.disk.acts.foldl (Act.effect w.current) w.tree

/-- Whatever the arguments, the surroundings and the files are: a run that is refused with exit
code two, or that fails with its settings, its sources or their conversion, leaves the files
untouched; a file or directory is written only after all sources were read and converted; and
without an output directory nothing is ever written. -/
theorem perform_writes_last (w : World) (arguments : List String) :
    WritesLast w arguments (perform w arguments) := by
  obtain ⟨acts, hdisk, hwent⟩ := perform_went w arguments
  have hacts : (perform w arguments).disk.acts = acts := by rw [hdisk]; rfl
  have haccounted : (perform w arguments).disk.tree =
      (perform w arguments).disk.acts.foldl (Act.effect w.current) w.tree := by
    rw [hacts, hdisk]
    rfl
  subst hacts
  have huntouched (hlooks : ∀ act ∈ (perform w arguments).disk.acts, act.isWrite = false) :
      Untouched w (perform w arguments) :=
    ⟨haccounted.trans (foldl_effect_of_looks w.current w.tree hlooks), hlooks⟩
  exact {
    refused := fun _ hending hcode => huntouched ((hending ▸ hwent).looks_of_refused hcode)
    failed := fun _ hending hfailure => huntouched ((hending ▸ hwent).looks_of_failed hfailure)
    tried := fun _ hending => (hending ▸ hwent).exists_write
    readyFirst := fun _ _ _ hsplit hact => hwent.ready_before hsplit hact
    withoutDirectory := fun hout => huntouched (hwent.looks_of_no_directory hout)
    written := fun _ hending hcode => (hending ▸ hwent).all_written hcode
    accounted := haccounted }

/-- Two sources and an output directory. Where the second source is missing nothing is written, and
where both are there each has its result. -/
theorem perform_with_two_sources :
    let arguments := ["a.js", "b.js", "-o", "out"]
    let first : List String × FileNode := (["a.js"], .file "let a;".toUTF8.toList)
    let second : List String × FileNode := (["b.js"], .file "let b;".toUTF8.toList)
    Untouched { tree := ⟨[first]⟩ } (perform { tree := ⟨[first]⟩ } arguments) ∧
      (perform { tree := ⟨[first, second]⟩ } arguments).disk.tree.nodes =
        [(["out", "b.py"], second.2), (["out", "a.py"], first.2), (["out"], .directory),
          first, second] := by
  intro arguments first second
  have hcode : (perform { tree := ⟨[first]⟩ } arguments).ending.toOption.map Decision.exitCode =
      some 2 := by
    decide +kernel
  obtain ⟨decision, hdecision, hcode⟩ := Option.map_eq_some_iff.1 hcode
  refine ⟨(perform_writes_last _ _).refused decision ?_ hcode, by decide +kernel⟩
  cases hending : (perform { tree := ⟨[first]⟩ } arguments).ending with
  | ok d =>
    rw [hending] at hdecision
    cases hdecision
    rfl
  | error failure =>
    rw [hending] at hdecision
    cases hdecision

end DocSignature.Run
