import Mathlib
import Downhill.Logging.Registry

/-! Loggers in tune. Whatever is asked of the registry, all its loggers go by one level, the one that
was set last: each has a single handler of that level and passes nothing on. A logger keeps its place
in the registry, and a name finds the same place with the root in front of it as without. Words that
are no names of levels mean warnings, but for two that stand for something else: a call with one of
these fails and changes nothing. -/
namespace Downhill

namespace Level

/-- The names of levels, in capitals. -/
def names : List (String × ℤ) :=
  [("DEBUG", debug), ("INFO", info), ("WARNING", warning), ("WARN", warning), ("ERROR", error),
    ("CRITICAL", critical), ("FATAL", critical), ("NOTSET", 0)]

/-- The words in capitals that stand for something which is no level. -/
def misread : List (String × LoggingFault) :=
  [("BASIC_FORMAT", .levelIsText), ("_STYLES", .levelIsOther)]

def spelled (word : String) : String := String.ofList (word.toList.flatMap capitals)

/-- The level of a name. A name that is not known means warnings. -/
def named (word : String) : ℤ := (names.lookup (spelled word)).getD warning

end Level

/-- The level that is meant. The misread words mean none. -/
def LevelName.meaning : LevelName → Except LoggingFault ℤ
  | number k => .ok k
  | word w =>
    match Level.misread.lookup (Level.spelled w) with
    | some f => .error f
    | none => .ok (Level.named w)
  | other => .error .levelIsOther

theorem LevelName.value_eq_meaning (level : LevelName) : level.value = level.meaning := by
  cases level with
  | number | other => rfl
  | word w =>
    simp only [value, meaning, Level.named, Level.spelled]
    generalize String.ofList (w.toList.flatMap Level.capitals) = s
    unfold Level.ofCapitals
    split
    -- the last pattern is for the words that are in neither table
    case h_11 hdebug hinfo hwarning hwarn herror hcritical hfatal hnotset hformat hstyles =>
      have hmisread : Level.misread.lookup s = none :=
        List.lookup_eq_none_iff.mpr (by simpa [Level.misread] using ⟨hformat, hstyles⟩)
      have hnames : Level.names.lookup s = none :=
        List.lookup_eq_none_iff.mpr (by
          simpa [Level.names] using
            ⟨hdebug, hinfo, hwarning, hwarn, herror, hcritical, hfatal, hnotset⟩)
      rw [hmisread, hnames]
      rfl
    all_goals rfl

theorem Format.exists_ofText {s : String} (h : s.isEmpty ∨ hasPlace s.toList) :
    ∃ f, ofText s = .ok f := by
  unfold ofText
  split_ifs with hempty hplace
  · exact ⟨_, rfl⟩
  · exact ⟨_, rfl⟩
  · exact absurd h (not_or.mpr ⟨hempty, hplace⟩)

theorem Format.ofText_eq_error {s : String} (h : ¬ (s.isEmpty ∨ hasPlace s.toList)) :
    ofText s = .error .noPlace := by
  rw [not_or] at h
  rw [ofText, if_neg h.1, if_neg h.2]

namespace Logger

/-- One handler, which goes by the level of the logger, and nothing passed on. -/
def Tuned (level : ℤ) (l : Logger) : Prop :=
  ∃ h : Handler, h.level = level ∧ l = ⟨l.name, level, false, [h]⟩

theorem tuned_make (name : String) (level : ℤ) : (make name level).Tuned level := ⟨_, rfl, rfl⟩

variable {k : ℤ} {l : Logger}

theorem Tuned.setLevel (hl : l.Tuned k) (level : ℤ) : (l.setLevel level).Tuned level := by
  obtain ⟨h, -, hl⟩ := hl
  rw [hl]
  exact ⟨_, rfl, rfl⟩

theorem Tuned.replaceHandlers (hl : l.Tuned k) (h : Handler) :
    (l.replaceHandlers h).Tuned h.level := by
  obtain ⟨_, -, hl⟩ := hl
  rw [hl]
  exact ⟨h, rfl, rfl⟩

/-- A name from outside finds the logger that it finds with the root in front. -/
theorem qualify_below {n : String} (hroot : n ≠ rootName)
    (hbelow : ¬ (rootName ++ ".").toList <+: n.toList) :
    qualify (some n) = qualify (some (rootName ++ "." ++ n)) := by
  have hleft : qualify (some n) = rootName ++ "." ++ n := if_neg (not_or.mpr ⟨hroot, hbelow⟩)
  have hinside : (rootName ++ ".").toList <+: (rootName ++ "." ++ n).toList := by
    simp only [String.toList_append]
    exact List.prefix_append _ _
  have hright : qualify (some (rootName ++ "." ++ n)) = rootName ++ "." ++ n :=
    if_pos (.inr hinside)
  rw [hleft, hright]

end Logger

namespace Registry

/-- What a program asks of the registry. -/
inductive Call where
  | get (name : Option String)
  | setLevel (level : LevelName)
  | configure (level : LevelName) (format : String) (stream : Stream)
  deriving Repr, DecidableEq

/-- The level that a call sets, if it is one that sets a level, or the fault in which it ends. -/
def Call.effect : Call → Except LoggingFault (Option ℤ)
  | get _ => .ok none
  | setLevel level => level.meaning.map some
  | configure level format _ =>
    if format.isEmpty ∨ Format.hasPlace format.toList then level.meaning.map some
    else .error .noPlace

/-- The level that was set last. Before any was set, it is that of warnings. -/
def recentLevel (calls : List Call) : ℤ :=
  ((calls.filterMap fun c => c.effect.toOption.join).getLast?).getD Level.warning

/-- An answer: a logger, known by its place in the registry, or nothing, or a fault. -/
abbrev Answer := Except LoggingFault (Option ℕ)

/-- A change that fails leaves the registry as it is. -/
def settle (r : Registry) : Except LoggingFault Registry → Answer × Registry
  | .ok r' => (.ok none, r')
  | .error f => (.error f, r)

def serve (r : Registry) : Call → Answer × Registry
  | .get name =>
    let (l, r) := r.get name
    (.ok (some (r.loggers.idxOf l)), r)
  | .setLevel level => r.settle (r.setLevel level)
  | .configure level format stream => r.settle (r.configure level format stream)

/-- The calls with their answers, and the registry after the last of them. -/
def run (r : Registry) : List Call → List (Call × Answer) × Registry
  | [] => ([], r)
  | c :: cs =>
    let (a, r) := r.serve c
    let (log, r) := r.run cs
    ((c, a) :: log, r)

/-- The calls that are made at the beginning: every source of remarks asks for its logger. -/
def opening : List Call := Source.all.map fun s => .get (some s.logger)

theorem initial_eq_run :
    initial = (empty.run (opening ++ [.get (some Logger.demonstration)])).2 := by
  decide +kernel

variable {r : Registry} {k : ℤ}

def names (r : Registry) : List String := r.loggers.map Logger.name

theorem name_of_find? {name : String} {l : Logger} (h : r.find? name = some l) : l.name = name := by
  rw [find?] at h
  have hname := List.find?_some h
  exact beq_iff_eq.mp hname

theorem not_mem_names_of_find? {name : String} (h : r.find? name = none) : name ∉ r.names := by
  intro hmem
  obtain ⟨l, hl, hname⟩ := List.mem_map.mp hmem
  exact List.find?_eq_none.mp h l hl (beq_iff_eq.mpr hname)

/-- A name finds the logger that has it, or a new one behind the others. -/
theorem get_eq (r : Registry) (name : Option String) :
    (∃ l ∈ r.loggers, l.name = Logger.qualify name ∧ r.get name = (l, r)) ∨
    Logger.qualify name ∉ r.names ∧ r.get name = (Logger.make (Logger.qualify name) r.level,
      { r with loggers := r.loggers ++ [Logger.make (Logger.qualify name) r.level] }) := by
  cases hfind : r.find? (Logger.qualify name) with
  | some l =>
    refine .inl ⟨l, List.mem_of_find?_eq_some hfind, name_of_find? hfind, ?_⟩
    simp only [get, hfind]
  | none =>
    refine .inr ⟨not_mem_names_of_find? hfind, ?_⟩
    simp only [get, hfind]

/-- The place at which a logger is handed out has its full name. -/
theorem names_idxOf {name : Option String} {l : Logger} {r' : Registry}
    (hget : r.get name = (l, r')) :
    r'.names[r'.loggers.idxOf l]? = some (Logger.qualify name) := by
  have hl : l ∈ r'.loggers ∧ l.name = Logger.qualify name := by
    obtain ⟨l₀, hl₀, hname, hold⟩ | ⟨-, hnew⟩ := r.get_eq name
    · obtain ⟨rfl, rfl⟩ := Prod.mk.inj (hget.symm.trans hold)
      exact ⟨hl₀, hname⟩
    · obtain ⟨rfl, rfl⟩ := Prod.mk.inj (hget.symm.trans hnew)
      exact ⟨List.mem_append_right _ (List.mem_singleton_self _), rfl⟩
  rw [names, List.getElem?_map, List.getElem?_idxOf hl.1, Option.map_some, hl.2]

theorem names_map {change : Logger → Logger} (hname : ∀ l, (change l).name = l.name)
    (loggers : List Logger) (k j : ℤ) :
    (⟨loggers.map change, k⟩ : Registry).names = (⟨loggers, j⟩ : Registry).names := by
  have hnames : Logger.name ∘ change = Logger.name := funext hname
  rw [names, names, List.map_map, hnames]

/-- What comes of a call: a logger that is there, a new one at the end, a change that every logger
undergoes, or a fault. -/
inductive Served (r : Registry) : Call → Answer × Registry → Prop
  | found {name : Option String} {i : ℕ} : Served r (.get name) (.ok (some i), r)
  | made {name : Option String} {i : ℕ} (hnew : Logger.qualify name ∉ r.names) :
      Served r (.get name) (.ok (some i),
        { r with loggers := r.loggers ++ [Logger.make (Logger.qualify name) r.level] })
  | changed {c : Call} {k : ℤ} {change : Logger → Logger} (heffect : c.effect = .ok (some k))
      (hname : ∀ l, (change l).name = l.name)
      (htuned : ∀ (j : ℤ) (l : Logger), l.Tuned j → (change l).Tuned k) :
      Served r c (.ok none, ⟨r.loggers.map change, k⟩)
  | failed {c : Call} {f : LoggingFault} (heffect : c.effect = .error f) :
      Served r c (.error f, r)

theorem served (r : Registry) (c : Call) : Served r c (r.serve c) := by
  cases c with
  | get name =>
    obtain ⟨l, -, -, hget⟩ | ⟨hnew, hget⟩ := r.get_eq name
    · rw [serve, hget]
      exact .found
    · rw [serve, hget]
      exact .made hnew
  | setLevel level =>
    simp only [serve, setLevel, level.value_eq_meaning]
    cases hmeaning : level.meaning with
    | error f => exact .failed (by rw [Call.effect, hmeaning]; rfl)
    | ok k =>
      exact .changed (by rw [Call.effect, hmeaning]; rfl) (fun _ => rfl) fun _ _ hl => hl.setLevel k
  | configure level format stream =>
    simp only [serve, configure, level.value_eq_meaning]
    by_cases hplace : format.isEmpty ∨ Format.hasPlace format.toList
    · obtain ⟨f, hformat⟩ := Format.exists_ofText hplace
      rw [hformat]
      cases hmeaning : level.meaning with
      | error f => exact .failed (by rw [Call.effect, if_pos hplace, hmeaning]; rfl)
      | ok k =>
        exact .changed (by rw [Call.effect, if_pos hplace, hmeaning]; rfl) (fun _ => rfl)
          fun _ _ hl => hl.replaceHandlers ⟨k, f, stream⟩
    · rw [Format.ofText_eq_error hplace]
      exact .failed (by rw [Call.effect, if_neg hplace])

/-- What holds between two calls: all loggers are in tune, at the level of the next one, and no two
of them have one name. -/
structure Tuned (level : ℤ) (r : Registry) : Prop where
  level_eq : r.level = level
  loggers : ∀ l ∈ r.loggers, l.Tuned level
  nodup : r.names.Nodup

theorem tuned_empty : empty.Tuned Level.warning := ⟨rfl, nofun, .nil⟩

theorem Tuned.serve (hr : r.Tuned k) (c : Call) :
    (r.serve c).2.Tuned (c.effect.toOption.join.getD k) := by
  have hserved := r.served c
  generalize r.serve c = after at hserved ⊢
  cases hserved with
  | found => exact hr
  | @made name _ hnew =>
    refine ⟨hr.level_eq, fun l hl => ?_, ?_⟩
    · obtain hold | hl := List.mem_append.mp hl
      · exact hr.loggers l hold
      · rw [List.mem_singleton.mp hl, hr.level_eq]
        exact Logger.tuned_make _ k
    · rw [names, List.map_append, List.map_singleton]
      refine List.nodup_append.mpr ⟨hr.nodup, List.nodup_singleton _, fun a ha b hb hab => ?_⟩
      rw [hab, List.mem_singleton.mp hb] at ha
      exact hnew ha
  | @changed _ level change heffect hname htuned =>
    rw [heffect]
    refine ⟨rfl, fun l hl => ?_, ?_⟩
    · obtain ⟨l, hold, rfl⟩ := List.mem_map.mp hl
      exact htuned k l (hr.loggers l hold)
    · rw [names_map hname r.loggers level r.level]
      exact hr.nodup
  | failed heffect =>
    rw [heffect]
    exact hr

/-- Loggers keep their places, and new ones come behind them. -/
theorem names_serve (r : Registry) (c : Call) : r.names <+: (r.serve c).2.names := by
  have hserved := r.served c
  generalize r.serve c = after at hserved ⊢
  cases hserved with
  | found => exact List.prefix_rfl
  | made => exact (List.prefix_append r.loggers _).map Logger.name
  | changed _ hname _ =>
    rw [names_map hname r.loggers _ r.level]
  | failed => exact List.prefix_rfl

/-- A call fails for what is wrong with it, and then it leaves the registry as it was. -/
theorem effect_eq_error_iff (r : Registry) (c : Call) (f : LoggingFault) :
    c.effect = .error f ↔ r.serve c = (.error f, r) := by
  have hserved := r.served c
  generalize r.serve c = after at hserved ⊢
  cases hserved with
  | found | made => exact iff_of_false nofun nofun
  | changed heffect => exact iff_of_false (by rw [heffect]; exact nofun) nofun
  | failed heffect =>
    rw [heffect, Prod.mk.injEq, and_iff_left rfl, Except.error.injEq, Except.error.injEq]

theorem run_cons (r : Registry) (c : Call) (cs : List Call) : r.run (c :: cs) =
    ((c, (r.serve c).1) :: ((r.serve c).2.run cs).1, ((r.serve c).2.run cs).2) := rfl

theorem map_fst_run (r : Registry) (cs : List Call) : (r.run cs).1.map Prod.fst = cs := by
  induction cs generalizing r with
  | nil => rfl
  | cons c cs ih => rw [run_cons, List.map_cons, ih]

theorem names_run (r : Registry) (cs : List Call) : r.names <+: (r.run cs).2.names := by
  induction cs generalizing r with
  | nil => exact List.prefix_rfl
  | cons c cs ih => exact (r.names_serve c).trans (ih (r.serve c).2)

/-- The level of the loggers is that of the last call which set one. -/
theorem Tuned.run (hr : r.Tuned k) (cs : List Call) : (r.run cs).2.Tuned
    (((cs.filterMap fun c => c.effect.toOption.join).getLast?).getD k) := by
  induction cs generalizing r k with
  | nil => exact hr
  | cons c cs ih =>
    -- what the first call leaves is the level from which the others start
    have htuned := ih (hr.serve c)
    rw [List.filterMap_cons]
    cases heffect : c.effect.toOption.join with
    | none => rwa [heffect] at htuned
    | some level =>
      rw [heffect] at htuned
      rwa [List.getLast?_cons]

/-- A logger that was handed out at any time stands at its place at the end. -/
theorem getElem?_names_run {cs : List Call} {name : Option String} {a : Answer}
    (h : (.get name, a) ∈ (r.run cs).1) :
    ∃ i, a = .ok (some i) ∧ (r.run cs).2.names[i]? = some (Logger.qualify name) := by
  induction cs generalizing r with
  | nil => cases h
  | cons c cs ih =>
    rw [run_cons] at h
    obtain hhead | htail := List.mem_cons.mp h
    · obtain ⟨rfl, ha⟩ := Prod.mk.inj hhead
      rcases hget : r.get name with ⟨l, r'⟩
      have hserve : r.serve (.get name) = (.ok (some (r'.loggers.idxOf l)), r') := by
        rw [serve, hget]
      have hplace := names_idxOf hget
      obtain ⟨hi, -⟩ := List.getElem?_eq_some_iff.mp hplace
      obtain ⟨later, hlater⟩ := r'.names_run cs
      refine ⟨r'.loggers.idxOf l, by rw [ha, hserve], ?_⟩
      rw [run_cons, hserve, ← hlater, List.getElem?_append_left hi, hplace]
    · exact ih htail

end Registry

end Downhill
