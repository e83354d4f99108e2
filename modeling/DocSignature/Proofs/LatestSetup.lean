import DocSignature.Proofs.LinePattern

/-!
# The latest set-up governs

However often a log is set up, with or without success, the program's loggers have one handler: that
of the latest set-up that was accepted. Every entry from its threshold on is written once, by that
handler, lower ones are not written, and a set-up that is refused changes nothing. Its label is
shown as it is only without percent signs.
-/

namespace DocSignature.Log

theorem Threshold.ofLabel?_eq_some_iff {label : String} {threshold : Threshold} :
    ofLabel? label = some threshold ↔ label = threshold.label := by
  constructor
  · intro h
    have hlabel := List.find?_some h
    exact (decide_eq_true_iff.1 hlabel).symm
  · rintro rfl
    cases threshold <;> decide

/-! ## Steps -/

/-- Holds of a log whose loggers have the handler of the latest set-up and no other. -/
def Orderly (log : Log) : Prop := log.logger.handlers = log.handler.toList

/-- Holds of a log in the state that a set-up leaves. -/
structure SetUp (log : Log) (t : Threshold) (label : String) : Prop where
  handler : ∃ h, log.handler = some h ∧ log.logger.handlers = [h] ∧ h.pattern = linePattern label
  level : log.logger.level = some t.least
  propagates : log.logger.propagates = false
  current : log.current = t

theorem Orderly.handlers_cleared {log : Log} (h : log.Orderly) :
    log.cleared.logger.handlers = [] := by
  unfold cleared
  split
  · rename_i old hold
    rw [Orderly, hold] at h
    simp [Logger.remove, h]
  · rename_i hnone
    rw [h, hnone]
    rfl

theorem Orderly.handlers_install {log : Log} (h : log.Orderly) (t : Threshold) (label : String) :
    (log.install t label).logger.handlers = [⟨log.cleared.made, linePattern label⟩] := by
  have hcleared := h.handlers_cleared
  simp [install, Logger.add, hcleared]

theorem Orderly.install {log : Log} (h : log.Orderly) (t : Threshold) (label : String) :
    (log.install t label).Orderly :=
  h.handlers_install t label

theorem Orderly.setUp_install {log : Log} (h : log.Orderly) (t : Threshold) (label : String) :
    (log.install t label).SetUp t label where
  handler := ⟨_, rfl, h.handlers_install t label, rfl⟩
  level := rfl
  propagates := rfl
  current := rfl

theorem root_install (log : Log) (t : Threshold) (label : String) :
    (log.install t label).root = log.root := by
  change log.cleared.root = log.root
  unfold cleared
  split <;> rfl

/-- Holds of the steps that set up a log. -/
def Step.IsSetup : Step → Prop
  | .configure name _ => ∃ t : Threshold, name = t.label
  | .write _ => False

instance (s : Step) : Decidable s.IsSetup :=
  match s with
  | .configure name _ =>
    decidable_of_iff ((Threshold.ofLabel? name).isSome = true) (by
      simp only [Option.isSome_iff_exists, Threshold.ofLabel?_eq_some_iff, Step.IsSetup])
  | .write _ => .isFalse id

theorem step_configure_label (log : Log) (t : Threshold) (label : Option String) :
    log.step (.configure t.label label) = (log.install t (label.getD ""), .ok "") := by
  rw [step, configure, Threshold.ofLabel?_eq_some_iff.2 rfl]
  rfl

theorem step_configure_refused {name : String} {label : Option String}
    (h : ¬(Step.configure name label).IsSetup) (log : Log) :
    log.step (.configure name label) = (log, .error ⟨name⟩) := by
  have hnone : Threshold.ofLabel? name = none :=
    Option.eq_none_iff_forall_ne_some.2 fun t ht => h ⟨t, Threshold.ofLabel?_eq_some_iff.1 ht⟩
  rw [step, configure, hnone]
  rfl

theorem step_of_not_isSetup {s : Step} (h : ¬s.IsSetup) (log : Log) : (log.step s).1 = log := by
  cases s with
  | write e => rfl
  | configure name label => rw [step_configure_refused h]

/-- A step leaves the log as it is or sets it up. -/
theorem step_cases (log : Log) (s : Step) :
    (log.step s).1 = log ∨ ∃ t label, (log.step s).1 = log.install t label := by
  by_cases h : s.IsSetup
  · cases s with
    | write e => exact h.elim
    | configure name label =>
      obtain ⟨t, rfl⟩ := h
      exact .inr ⟨t, _, by rw [step_configure_label]⟩
  · exact .inl (step_of_not_isSetup h log)

/-! ## Runs -/

theorem after_append (log : Log) (xs ys : List Step) :
    log.after (xs ++ ys) = (log.after xs).after ys :=
  List.foldl_append

theorem after_cons (log : Log) (s : Step) (steps : List Step) :
    log.after (s :: steps) = (log.step s).1.after steps := rfl

/-- What a step can do is all that a run can do. -/
theorem after_induction {P : Log → Prop} (hinstall : ∀ log t label, P log → P (log.install t label))
    (steps : List Step) {log : Log} (h : P log) : P (log.after steps) := by
  induction steps generalizing log with
  | nil => exact h
  | cons s steps ih =>
    rw [after_cons]
    apply ih
    rcases log.step_cases s with hsame | ⟨t, label, hset⟩
    · rwa [hsame]
    · rw [hset]
      exact hinstall log t label h

theorem Orderly.after {log : Log} (h : log.Orderly) (steps : List Step) :
    (log.after steps).Orderly :=
  after_induction (fun _ t label h => h.install t label) steps h

theorem root_after (log : Log) (steps : List Step) : (log.after steps).root = log.root :=
  after_induction (fun log' t label h => (root_install log' t label).trans h) steps rfl

theorem after_of_no_setup {steps : List Step} (h : ∀ s ∈ steps, ¬s.IsSetup) (log : Log) :
    log.after steps = log := by
  induction steps with
  | nil => rfl
  | cons s steps ih =>
    obtain ⟨hs, hsteps⟩ := List.forall_mem_cons.1 h
    rw [after_cons, step_of_not_isSetup hs, ih hsteps]

/-- The log after a set-up behind which there is no other. -/
theorem setUp_after (root : Root) (before : List Step) (t : Threshold) (label : Option String)
    {later : List Step} (hlater : ∀ s ∈ later, ¬s.IsSetup) :
    (({ root } : Log).after (before ++ .configure t.label label :: later)).SetUp t
      (label.getD "") := by
  have hfresh : ({ root } : Log).Orderly := rfl
  rw [after_append, after_cons, step_configure_label, after_of_no_setup hlater]
  -- The steps before have left at most the one handler that this set-up takes away.
  exact (hfresh.after before).setUp_install t _

/-! ## What is written -/

theorem Threshold.pos_of_least_le {t : Threshold} {level : Level} (h : t.least ≤ level) :
    0 < level.rank := by
  have hpos : 0 < t.least.rank := by cases t <;> decide
  exact Int.lt_of_lt_of_le hpos h

theorem SetUp.write {log : Log} {t : Threshold} {label : String} (h : log.SetUp t label)
    {handler : Handler} (hhandler : log.logger.handlers = [handler]) {e : Entry}
    (hown : isOwn e.logger = true) :
    log.write e = if t.least ≤ e.level then handler.write log.root e else "" := by
  have hwriters : log.writers = [handler.write log.root] := by
    simp [writers, hhandler, h.propagates]
  rw [Log.write, if_pos hown, h.level, hwriters, deliver]
  by_cases hlevel : t.least ≤ e.level
  · simp [hlevel, Threshold.pos_of_least_le hlevel, String.join]
  · simp [hlevel]

/-- Holds of a log that keeps to a threshold: entries of the program's loggers are written from
there on, each as its line and no more, and lower ones are not. Writing does not change the log. -/
structure Obeys (log : Log) (t : Threshold) (line : Entry → String) : Prop where
  current : log.current = t
  written : ∀ e, isOwn e.logger = true → t.least ≤ e.level →
    log.step (.write e) = (log, .ok (line e))
  silent : ∀ e, isOwn e.logger = true → ¬t.least ≤ e.level → log.step (.write e) = (log, .ok "")

theorem SetUp.obeys {log : Log} {t : Threshold} {label : String} (h : log.SetUp t label)
    {handler : Handler} (hhandler : log.logger.handlers = [handler]) :
    log.Obeys t (handler.write log.root) where
  current := h.current
  written e hown hlevel := by rw [step, h.write hhandler hown, if_pos hlevel]
  silent e hown hlevel := by rw [step, h.write hhandler hown, if_neg hlevel]

theorem SetUp.obeys_label_iff {log : Log} {t : Threshold} {label : String} (h : log.SetUp t label) :
    log.Obeys t (fun e => e.lineWith (bracketed label)) ↔ '%' ∉ label.toList := by
  obtain ⟨handler, -, hhandler, hpattern⟩ := h.handler
  have hobeys := h.obeys hhandler
  constructor
  · intro hlabel hpercent
    have hown : isOwn terse.logger = true := by decide
    have hlevel : t.least ≤ terse.level := by cases t <;> decide
    have hlines := (hobeys.written terse hown hlevel).symm.trans (hlabel.written terse hown hlevel)
    exact Handler.write_terse_ne hpattern hpercent log.root
      (Except.ok.inj (congrArg Prod.snd hlines))
  · intro hplain
    have hline : (fun e : Entry => e.lineWith (bracketed label)) = handler.write log.root :=
      funext fun e => (Handler.write_of_plain hpattern hplain log.root e).symm
    rw [hline]
    exact hobeys

/-- Whatever is done to a log, the latest set-up that was accepted governs it, in any surroundings:
its handler is the only one, its threshold counts, and every entry from there on is written once.
The label is shown as it is exactly if it has no percent sign. A set-up is refused only for a
threshold that is unknown, and then the log is as it was. -/
theorem after_obeys_latest_setup (root : Root) (before : List Step) (t : Threshold)
    (label : Option String) (later : List Step) (hlater : ∀ s ∈ later, ¬s.IsSetup) :
    let log := ({ root } : Log).after (before ++ .configure t.label label :: later)
    (∃ handler, log.handler = some handler ∧ log.logger.handlers = [handler] ∧
      handler.pattern = linePattern (label.getD "") ∧ log.Obeys t (handler.write root)) ∧
    (log.Obeys t (fun e => e.lineWith (bracketed (label.getD ""))) ↔
      '%' ∉ (label.getD "").toList) ∧
    (∀ (log' : Log) (u : Threshold) (l : Option String),
      (log'.step (.configure u.label l)).2 = .ok "") ∧
    ∀ (log' : Log) (name : String) (l : Option String), (∀ u : Threshold, name ≠ u.label) →
      log'.step (.configure name l) = (log', .error ⟨name⟩) := by
  intro log
  have hsetUp : log.SetUp t (label.getD "") := setUp_after root before t label hlater
  have hroot : log.root = root := root_after _ _
  obtain ⟨handler, hlatest, honly, hpattern⟩ := hsetUp.handler
  refine ⟨⟨handler, hlatest, honly, hpattern, hroot ▸ hsetUp.obeys honly⟩,
    hsetUp.obeys_label_iff, fun log' u l => ?_, fun log' name l hname => ?_⟩
  · rw [step_configure_label]
  · exact step_configure_refused (fun ⟨u, hu⟩ => hname u hu) log'

/-- Surroundings that write every message themselves. -/
def echoing : Root := { handlers := [Entry.message] }

/-- A set-up that is accepted, one that is not, and an entry. -/
def beginning : List Step :=
  [.configure "verbose" (some "Worker#AB12"), .configure "loud" none,
    .write ⟨.debug, "reading", "jsdocx.cli"⟩]

/-- An entry, and a set-up that is not accepted. -/
def refusedLater : List Step :=
  [.write ⟨.info, "hello there", "jsdocx.translate"⟩, .configure "Quiet" (some "Worker#EF56")]

/-- A log that two workers have set up, one after the other. -/
def handedOver : Log :=
  ({ root := echoing } : Log).after
    (beginning ++ .configure "info" (some "Worker#CD34") :: refusedLater)

theorem handedOver_obeys_second_worker :
    (∀ s ∈ refusedLater, ¬s.IsSetup) ∧
      (handedOver.Obeys .info fun e => e.lineWith " [Worker#CD34]") ∧
      handedOver.step (.configure "loud" none) = (handedOver, .error ⟨"loud"⟩) := by
  have hlater : ∀ s ∈ refusedLater, ¬s.IsSetup := by decide
  obtain ⟨-, hlabel, -, hrefused⟩ :=
    after_obeys_latest_setup echoing beginning .info (some "Worker#CD34") refusedLater hlater
  exact ⟨hlater, hlabel.2 (by decide),
    hrefused handedOver "loud" none fun u => by cases u <;> decide⟩

/-- A log with two percent signs for a label. -/
def doubledPercent : Log := ({} : Log).after [.configure "quiet" (some "%%")]

/-- A warning of the program itself. -/
def oneWarning : Entry := { level := .warning, message := "m" }

/-- Of two percent signs one is shown. -/
theorem doubledPercent_shows_one :
    doubledPercent.write oneWarning = "[jsdocx] [WARNING] [%] m\n" ∧
      ¬doubledPercent.Obeys .quiet fun e => e.lineWith (bracketed "%%") := by
  have hline : doubledPercent.write oneWarning = "[jsdocx] [WARNING] [%] m\n" := by
    decide +kernel
  refine ⟨hline, fun h => ?_⟩
  have hwritten := h.written oneWarning (by decide) (by decide)
  rw [step, hline, Prod.mk.injEq, Except.ok.injEq] at hwritten
  exact absurd hwritten.2 (by decide +kernel)

end DocSignature.Log
