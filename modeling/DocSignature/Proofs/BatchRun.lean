import DocSignature.Batch
import Mathlib.Data.List.Forall2

/-!
# Many sources at once

Converting many sources gives what converting each of them gives, in the same order, whatever the
batches and the workers are, as long as no source has a fault. With several workers and several
batches a fault stays in its batch: the sources of the batch are given back as they are. With one
worker, or one batch, a fault ends the run.
-/

namespace DocSignature.Batch

/-- A source of a job converted by itself. -/
def Job.convertOne (job : Job) (s : SourceFile) : Except Header.ParamFault Conversion :=
  Conversion.convert ⟨job.language, job.typeMap, some s.path⟩ s.text

/-- Holds of a source without a fault. -/
def Job.Converts (job : Job) (s : SourceFile) : Prop := ∃ c, job.convertOne s = .ok c

theorem Job.not_converts {job : Job} {s : SourceFile} {e : Header.ParamFault}
    (h : job.convertOne s = .error e) : ¬job.Converts s := by
  rintro ⟨c, hc⟩
  rw [hc] at h
  cases h

theorem Job.converts_iff (job : Job) (s : SourceFile) :
    (job.convertOne s).isOk = true ↔ job.Converts s := by
  unfold Job.Converts
  cases job.convertOne s <;> simp [Except.isOk, Except.toBool]

instance (job : Job) (s : SourceFile) : Decidable (job.Converts s) :=
  decidable_of_iff _ (job.converts_iff s)

/-! ## Batches -/

theorem runs_eq_cons {α : Type} {size : Nat} (hsize : 0 < size) {items : List α}
    (hne : items ≠ []) : runs size items = items.take size :: runs size (items.drop size) := by
  obtain ⟨first, rest, rfl⟩ := List.exists_cons_of_ne_nil hne
  obtain ⟨n, rfl⟩ : ∃ n, size = n + 1 := ⟨size - 1, by omega⟩
  rw [runs]
  simp

theorem runs_eq_nil_iff {α : Type} {size : Nat} (hsize : 0 < size) {items : List α} :
    runs size items = [] ↔ items = [] := by
  constructor
  · intro h
    by_contra hne
    rw [runs_eq_cons hsize hne] at h
    cases h
  · rintro rfl
    rw [runs]

theorem flatten_runs {α : Type} (size : Nat) (items : List α) :
    (runs size items).flatten = items := by
  fun_induction runs size items with
  | case1 => rfl
  | case2 first rest ih => rw [List.flatten_cons, ih, List.cons_append, List.take_append_drop]

/-- Two lists of which the second is made run by run of the first correspond item by item: the run
of the item at `i` is that of the `size` items from `i / size * size` on. -/
theorem forall_getElem?_of_runs {α β : Type} {size : Nat} (hsize : 0 < size)
    {R : List α → α → β → Prop} {items : List α} {outs : List (List β)}
    (h : List.Forall₂ (fun run out => List.Forall₂ (R run) run out) (runs size items) outs) :
    outs.flatten.length = items.length ∧ ∀ i a b, items[i]? = some a → outs.flatten[i]? = some b →
      R ((items.drop (i / size * size)).take size) a b := by
  fun_induction runs size items generalizing outs with
  | case1 =>
    cases h
    exact ⟨rfl, fun i a b ha => by simp at ha⟩
  | case2 first rest ih =>
    cases h with
    | cons hfirst hrest =>
      rename_i out outs
      obtain ⟨hlength, hlater⟩ := ih hrest
      have hrun : (first :: rest).take size = first :: rest.take (size - 1) :=
        List.take_cons (by omega)
      have hdrop : (first :: rest).drop size = rest.drop (size - 1) :=
        List.drop_cons (by omega)
      rw [← hrun] at hfirst
      rw [← hdrop] at hlength hlater
      have hout := hfirst.length_eq
      simp only [List.length_take] at hout
      simp only [List.length_drop] at hlength
      rw [List.flatten_cons]
      refine ⟨by rw [List.length_append, hlength]; omega, fun i a b ha hb => ?_⟩
      have hi : i < (first :: rest).length := (List.getElem?_eq_some_iff.1 ha).1
      by_cases hlt : i < size
      -- in the first run
      · rw [Nat.div_eq_of_lt hlt, Nat.zero_mul, List.drop_zero]
        rw [List.getElem?_append_left (by omega)] at hb
        rw [← List.getElem?_take_of_lt hlt] at ha
        obtain ⟨hi', rfl⟩ := List.getElem?_eq_some_iff.1 ha
        obtain ⟨ho, rfl⟩ := List.getElem?_eq_some_iff.1 hb
        exact hfirst.get hi' ho
      -- in a later one
      · rw [List.getElem?_append_right (by omega), show out.length = size by omega] at hb
        have hstart : i / size * size = size + (i - size) / size * size := by
          rw [Nat.div_eq_sub_div hsize (by omega), Nat.add_mul, Nat.one_mul, Nat.add_comm]
        rw [hstart, ← List.drop_drop]
        refine hlater (i - size) a b ?_ hb
        rw [List.getElem?_drop, ← ha]
        congr 1
        omega

namespace Job

variable {job : Job}

/-- A batch holds at least one source, unless a negative size is asked for. -/
theorem size_pos (hsize : ∀ n ∈ job.batchSize, 0 ≤ n) : 0 < job.size := by
  unfold Job.size
  split
  · rename_i n hn
    have hle := hsize n hn
    split
    · decide
    · omega
  · decide

section Size
variable (hsize : 0 < job.size) (sources : List SourceFile)
include hsize

/-- The batches of a job are the runs of its sources. -/
theorem sources_batches :
    (job.batches sources).map (·.sources) = runs job.size.toNat sources := by
  unfold Job.batches cut
  rw [if_neg (by omega), if_neg (by omega)]
  change (number _).map _ = _
  rw [number, List.map_map]
  exact List.zipIdx_map_fst 0 _

theorem flatMap_batches : (job.batches sources).flatMap (·.sources) = sources := by
  rw [List.flatMap_def, sources_batches hsize, flatten_runs]

/-- There are several batches as soon as the sources do not fit into one. -/
theorem one_lt_batches_iff :
    1 < (job.batches sources).length ↔ job.size < sources.length := by
  have hlength := congrArg List.length (sources_batches hsize sources)
  rw [List.length_map] at hlength
  rw [hlength]
  by_cases hne : sources = []
  · subst hne
    simp only [runs, List.length_nil]
    omega
  · have hrest : 0 < (runs job.size.toNat (sources.drop job.size.toNat)).length ↔
        job.size.toNat < sources.length := by
      rw [List.length_pos_iff, Ne, runs_eq_nil_iff (by omega), List.drop_eq_nil_iff]
      omega
    rw [runs_eq_cons (by omega) hne, List.length_cons]
    omega

end Size

end Job

/-- Sources of which all have a result have no fault. -/
theorem converts_of_map_ok {job : Job} {sources : List SourceFile} {cs : List Conversion}
    (h : cs.map .ok = sources.map job.convertOne) : ∀ s ∈ sources, job.Converts s := by
  intro s hs
  have hmem : job.convertOne s ∈ cs.map .ok := by
    rw [h]
    exact List.mem_map_of_mem hs
  obtain ⟨c, -, hc⟩ := List.mem_map.1 hmem
  exact ⟨c, hc.symm⟩

/-! ## One batch -/

section Convert
variable (log : Log) (job : Job)

/-- Sources are converted one by one, up to the first fault. -/
theorem convertEach_cases (sources : List SourceFile) :
    (∃ cs, (convertEach log job.language job.typeMap sources).2 = .ok cs ∧
      cs.map .ok = sources.map job.convertOne) ∨
    ∃ e, (convertEach log job.language job.typeMap sources).2 = .error e ∧
      ∃ s ∈ sources, job.convertOne s = .error e := by
  induction sources with
  | nil => exact .inl ⟨[], rfl, rfl⟩
  | cons s rest ih =>
    unfold convertEach
    cases hs : Conversion.convert ⟨job.language, job.typeMap, some s.path⟩ s.text with
    | error e => exact .inr ⟨e, rfl, s, by simp, hs⟩
    | ok c =>
      rcases ih with ⟨cs, hcs, hmap⟩ | ⟨e, he, s', hs', hfault⟩
      · refine .inl ⟨c :: cs, ?_, ?_⟩
        · simp only [hcs, Except.map]
        · rw [List.map_cons, List.map_cons, hmap, Job.convertOne, hs]
      · refine .inr ⟨e, ?_, s', by simp [hs'], hfault⟩
        simp only [he, Except.map]

/-- The outcome of a batch is that of its sources. -/
theorem convert_cases (b : Batch) :
    (∃ cs, (convert log job.language job.typeMap b).2 = .ok cs ∧
      cs.map .ok = b.sources.map job.convertOne) ∨
    ∃ e, (convert log job.language job.typeMap b).2 = .error e ∧
      ∃ s ∈ b.sources, job.convertOne s = .error e :=
  convertEach_cases log job b.sources

theorem convertInTurn_cons (b : Batch) (bs : List Batch) :
    convertInTurn log job.language job.typeMap (b :: bs) =
      match (convert log job.language job.typeMap b).2 with
      | .error e => .error e
      | .ok results => (convertInTurn log job.language job.typeMap bs).map fun more =>
        ⟨results ++ more.results, (convert log job.language job.typeMap b).1 ++ more.log⟩ := by
  rw [convertInTurn]
  rcases convert log job.language job.typeMap b with ⟨text, _ | _⟩ <;> rfl

/-- Batches are converted in turn, up to the first fault. -/
theorem convertInTurn_cases (bs : List Batch) :
    (∃ r, convertInTurn log job.language job.typeMap bs = .ok r ∧
      r.results.map .ok = (bs.flatMap (·.sources)).map job.convertOne) ∨
    ∃ e, convertInTurn log job.language job.typeMap bs = .error e ∧
      ∃ s ∈ bs.flatMap (·.sources), job.convertOne s = .error e := by
  induction bs with
  | nil => exact .inl ⟨⟨[], ""⟩, rfl, rfl⟩
  | cons b bs ih =>
    rw [convertInTurn_cons, List.flatMap_cons]
    rcases convert_cases log job b with ⟨cs, hcs, hmap⟩ | ⟨e, he, s, hs, hfault⟩
    · rw [hcs]
      rcases ih with ⟨r, hr, hrest⟩ | ⟨e, he, s, hs, hfault⟩
      · refine .inl ⟨_, by rw [hr]; rfl, ?_⟩
        rw [List.map_append, List.map_append, hmap, hrest]
      · exact .inr ⟨e, by rw [he]; rfl, s, List.mem_append_right _ hs, hfault⟩
    · exact .inr ⟨e, by rw [he], s, List.mem_append_left _ hs, hfault⟩

/-! ## Batches of their own -/

/-- A source that is given back as it is, with one diagnostic that says so. -/
structure PassedThrough (s : SourceFile) (c : Conversion) : Prop where
  text : c.text = s.text
  file : c.file = some s.path
  diagnostic : ∃ d, c.diagnostics = [d] ∧ d.kind = .internalError ∧ d.span.file = some s.path

theorem passedThrough_unconverted (worker : String) (e : Header.ParamFault) (s : SourceFile) :
    PassedThrough s (unconverted worker e s) :=
  ⟨rfl, rfl, _, rfl, rfl, rfl⟩

/-- What becomes of a source that is converted together with the others of its batch: its own
conversion when none of them has a fault, and else the source as it is. -/
structure Settled (batch : List SourceFile) (s : SourceFile) (c : Conversion) : Prop where
  converted : (∀ s' ∈ batch, job.Converts s') → job.convertOne s = .ok c
  passedThrough : (∃ s' ∈ batch, ¬job.Converts s') → PassedThrough s c

/-- The results of a batch stand for its sources one by one. -/
theorem settle_spec (b : Batch) :
    List.Forall₂ (Settled job b.sources) b.sources
      (settle b (convert log job.language job.typeMap b).2) := by
  rcases convert_cases log job b with ⟨cs, hcs, hmap⟩ | ⟨e, he, s, hs, hfault⟩
  · have heach : List.Forall₂ (fun c s => .ok c = job.convertOne s) cs b.sources := by
      rw [← List.forall₂_map_right_iff, ← List.forall₂_map_left_iff, List.forall₂_eq_eq_eq]
      exact hmap
    rw [hcs, settle]
    refine heach.flip.imp fun s c hc => ⟨fun _ => hc.symm, ?_⟩
    rintro ⟨s', hs', hfault⟩
    exact absurd (converts_of_map_ok hmap s' hs') hfault
  · rw [he, settle, List.forall₂_map_right_iff, List.forall₂_same]
    refine fun s' _ => ⟨fun hall => ?_, fun _ => passedThrough_unconverted _ _ _⟩
    exact absurd (hall s hs) (Job.not_converts hfault)

theorem settled_convertApart (bs : List Batch) :
    ∃ outs, (convertApart log job.language job.typeMap bs).results = outs.flatten ∧
      List.Forall₂ (fun run out => List.Forall₂ (Settled job run) run out)
        (bs.map (·.sources)) outs := by
  refine ⟨bs.map fun b =>
    settle b (convert (log.labelled b.worker) job.language job.typeMap b).2, ?_, ?_⟩
  · simp only [convertApart, List.flatMap_def, List.map_map]
    rfl
  · rw [List.forall₂_map_left_iff, List.forall₂_map_right_iff, List.forall₂_same]
    exact fun b _ => settle_spec _ job b

/-! ## All sources -/

/-- The sources that are in one batch with the one at `i`, itself included. -/
def Job.peers (sources : List SourceFile) (i : Nat) : List SourceFile :=
  (sources.drop (i / job.size.toNat * job.size.toNat)).take job.size.toNat

section All
variable {job : Job} {sources : List SourceFile}

/-- With one worker or one batch, sources are converted in turn. -/
theorem convertAll_in_turn (hsize : 0 < job.size)
    (h : ¬(1 < job.workers ∧ 1 < (job.batches sources).length)) :
    (∃ r, convertAll log job sources = .ok r ∧
      r.results.map .ok = sources.map job.convertOne) ∨
    ∃ e, convertAll log job sources = .error e ∧ ∃ s ∈ sources, job.convertOne s = .error e := by
  have hturn : (job.workers ≤ 1 || (job.batches sources).length ≤ 1) = true := by
    simp only [Bool.or_eq_true, decide_eq_true_eq]
    omega
  unfold convertAll
  simp only [hturn, if_true]
  have hcases := convertInTurn_cases log job (job.batches sources)
  rw [Job.flatMap_batches hsize] at hcases
  rcases hcases with ⟨r, hr, hmap⟩ | ⟨e, he, hfault⟩
  · rw [hr]
    exact .inl ⟨_, rfl, hmap⟩
  · rw [he]
    exact .inr ⟨e, rfl, hfault⟩

/-- With several workers and several batches there is a result for every source, whatever faults
there are. -/
theorem convertAll_apart (hsize : 0 < job.size) (hworkers : 1 < job.workers)
    (hbatches : 1 < (job.batches sources).length) :
    ∃ r, convertAll log job sources = .ok r ∧ r.results.length = sources.length ∧
      ∀ i s c, sources[i]? = some s → r.results[i]? = some c →
        Settled job (job.peers sources i) s c := by
  have hturn : (job.workers ≤ 1 || (job.batches sources).length ≤ 1) = false := by
    simp only [Bool.or_eq_false_iff, decide_eq_false_iff_not]
    omega
  obtain ⟨outs, hresults, houts⟩ := settled_convertApart log job (job.batches sources)
  rw [Job.sources_batches hsize] at houts
  unfold convertAll
  simp only [hturn]
  refine ⟨_, rfl, ?_⟩
  simp only [hresults]
  exact forall_getElem?_of_runs (by omega) houts

/-- Without a fault every source gets its own conversion. -/
theorem convertAll_of_converts (hsize : 0 < job.size) (hall : ∀ s ∈ sources, job.Converts s) :
    ∃ r, convertAll log job sources = .ok r ∧
      r.results.map .ok = sources.map job.convertOne := by
  by_cases hapart : 1 < job.workers ∧ 1 < (job.batches sources).length
  · obtain ⟨r, hr, hlength, hsettled⟩ := convertAll_apart log hsize hapart.1 hapart.2
    refine ⟨r, hr, List.ext_getElem (by simpa using hlength) fun i hi hi' => ?_⟩
    simp only [List.length_map] at hi hi'
    rw [List.getElem_map, List.getElem_map]
    refine ((hsettled i _ _ (List.getElem?_eq_getElem hi') (List.getElem?_eq_getElem hi)).converted
      fun s hs => hall s ?_).symm
    exact List.mem_of_mem_drop (List.mem_of_mem_take hs)
  · rcases convertAll_in_turn log hsize hapart with h | ⟨e, -, s, hs, hfault⟩
    · exact h
    · exact absurd (hall s hs) (Job.not_converts hfault)

/-- A run comes to its end exactly when there is no fault, or there are several workers and more
sources than fit into one batch. -/
theorem convertAll_eq_ok_iff (hsize : 0 < job.size) :
    (∃ r, convertAll log job sources = .ok r) ↔
      (1 < job.workers ∧ job.size < sources.length) ∨ ∀ s ∈ sources, job.Converts s := by
  rw [← Job.one_lt_batches_iff hsize]
  constructor
  · rintro ⟨r, hr⟩
    by_cases hapart : 1 < job.workers ∧ 1 < (job.batches sources).length
    · exact .inl hapart
    · rcases convertAll_in_turn log hsize hapart with ⟨r', -, hmap⟩ | ⟨e, he, -⟩
      · exact .inr (converts_of_map_ok hmap)
      · rw [hr] at he
        cases he
  · rintro (⟨hworkers, hbatches⟩ | hall)
    · obtain ⟨r, hr, -⟩ := convertAll_apart log hsize hworkers hbatches
      exact ⟨r, hr⟩
    · obtain ⟨r, hr, -⟩ := convertAll_of_converts log hsize hall
      exact ⟨r, hr⟩

end All

/-- Converting many sources, in batches of any size and by any number of workers, gives the
conversion of each of them in the same order, if none has a fault. With several workers and several
batches there is a result for every source in any case: the sources of a batch with a fault are
given back as they are, and all others get their own conversion. -/
theorem convertAll_converts_each (sources : List SourceFile)
    (hsize : ∀ n ∈ job.batchSize, 0 ≤ n) :
    ((∀ s ∈ sources, job.Converts s) → ∃ r, convertAll log job sources = .ok r ∧
      r.results.map .ok = sources.map job.convertOne) ∧
    (1 < job.workers → 1 < (job.batches sources).length →
      ∃ r, convertAll log job sources = .ok r ∧ r.results.length = sources.length ∧
        ∀ i s c, sources[i]? = some s → r.results[i]? = some c →
          Settled job (job.peers sources i) s c) := by
  have hpos := Job.size_pos hsize
  constructor
  · intro hall
    exact convertAll_of_converts log hpos hall
  · intro hworkers hbatches
    exact convertAll_apart log hpos hworkers hbatches

/-- A source with a fault and one without. -/
def faultySources : List SourceFile :=
  [⟨"a.js", "public static void f(= 1)"⟩, ⟨"b.js", "let x;"⟩]

/-- The job of converting each source in a batch of its own. -/
def singly (workers : Int) : Job :=
  { language := .csharp, workers := workers, batchSize := some 1 }

/-- The fault of the first source leaves the second one alone. -/
theorem convertAll_converts_each_singly :
    ∃ r, convertAll {} (singly 2) faultySources = .ok r ∧
      (∀ c, r.results[0]? = some c → PassedThrough ⟨"a.js", "public static void f(= 1)"⟩ c) ∧
      ∀ c, r.results[1]? = some c → (singly 2).convertOne ⟨"b.js", "let x;"⟩ = .ok c := by
  have hbatches : 1 < ((singly 2).batches faultySources).length :=
    (Job.one_lt_batches_iff (by decide) _).2 (by decide)
  obtain ⟨r, hr, -, hsettled⟩ :=
    (convertAll_converts_each {} (singly 2) faultySources (by decide)).2 (by decide) hbatches
  refine ⟨r, hr, fun c hc => ?_, fun c hc => ?_⟩
  · exact (hsettled 0 _ c rfl hc).passedThrough ⟨_, List.mem_singleton_self _, by decide +kernel⟩
  · exact (hsettled 1 _ c rfl hc).converted (by decide +kernel)

/-- Two numbers of workers agree on whether a run comes to its end exactly when no source has a
fault, or all sources fit into one batch, or both numbers or none are above one: with one worker, or
one batch, a fault ends the run. -/
theorem convertAll_ends_alike_iff (sources : List SourceFile) (workers workers' : Int)
    (hsize : ∀ n ∈ job.batchSize, 0 ≤ n) :
    ((∃ r, convertAll log { job with workers } sources = .ok r) ↔
      (1 < workers ∧ job.size < sources.length) ∨ ∀ s ∈ sources, job.Converts s) ∧
    (((∃ r, convertAll log { job with workers } sources = .ok r) ↔
        ∃ r, convertAll log { job with workers := workers' } sources = .ok r) ↔
      (∀ s ∈ sources, job.Converts s) ∨ sources.length ≤ job.size ∨
        (1 < workers ↔ 1 < workers')) := by
  -- the number of workers has no part in the size of a batch or in the conversion of one source
  have hends (w : Int) : (∃ r, convertAll log { job with workers := w } sources = .ok r) ↔
      (1 < w ∧ job.size < sources.length) ∨ ∀ s ∈ sources, job.Converts s :=
    convertAll_eq_ok_iff log (Job.size_pos hsize)
  refine ⟨hends workers, ?_⟩
  rw [hends workers, hends workers', ← Int.not_lt]
  by_cases hall : ∀ s ∈ sources, job.Converts s
  · exact iff_of_true (iff_of_true (.inr hall) (.inr hall)) (.inl hall)
  · rw [or_iff_left hall, or_iff_left hall, or_iff_right hall]
    tauto

/-- Not so many sources that a second worker gets one. -/
theorem convertAll_ends_alike_of_few :
    ¬(∀ s ∈ faultySources, Job.Converts { language := .csharp } s) ∧
      ((∃ r, convertAll {} { language := .csharp, workers := 1 } faultySources = .ok r) ↔
        ∃ r, convertAll {} { language := .csharp, workers := 2 } faultySources = .ok r) :=
  ⟨by decide +kernel, (convertAll_ends_alike_iff {} { language := .csharp } faultySources 1 2
    (by decide)).2.2 (.inr (.inl (by decide)))⟩

/-- A fault ends the run of one worker, and not that of two. -/
theorem convertAll_ends_with_two_workers :
    (¬∃ r, convertAll {} (singly 1) faultySources = .ok r) ∧
      ∃ r, convertAll {} (singly 2) faultySources = .ok r := by
  rw [convertAll_eq_ok_iff {} (by decide), convertAll_eq_ok_iff {} (by decide)]
  decide +kernel

end Convert

end DocSignature.Batch
