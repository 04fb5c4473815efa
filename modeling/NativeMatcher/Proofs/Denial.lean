import Mathlib.Data.List.TakeWhile
import NativeMatcher.Proofs.Refusal

/-!
# Denials

A denial lasts. A source that was denied in a scope stays denied whatever is asked of the engine
afterwards, and a source that was not denied is granted
(`NativeMatcher.Engine.denied_of_session`). Only another handler for the scope ends a denial; it
comes with denials of its own.

What a deny list names is said without the parser: the text is put together from pieces with
commas between them, and a source is one of the pieces without the blanks around it
(`NativeMatcher.Permission.Names`). The parser finds exactly these
(`NativeMatcher.Permission.mem_sources_iff`).

A denial is looked at before anything else is done. So the code of a source that must not be run
is not run (`NativeMatcher.Engine.Barred`), also if it was compiled before the denial, and a source
for which no code may be generated is not even given the code it has already.
-/

namespace NativeMatcher

/-! ### Deny lists -/

namespace Permission

/-- A text without the blanks around it. -/
structure Trims (text inner : List Char) : Prop where
  /-- Only blanks are left out. -/
  around : ∃ left right, text = left ++ inner ++ right ∧ (∀ c ∈ left, isBlank c = true) ∧
    ∀ c ∈ right, isBlank c = true
  /-- What is left does not begin with a blank. -/
  first : ∀ c ∈ inner.head?, isBlank c = false
  /-- It does not end with one. -/
  last : ∀ c ∈ inner.getLast?, isBlank c = false

/-- A source is an item of a deny list: one of the pieces between the commas, without the blanks
around it, and not empty. -/
def Names (deny source : String) : Prop :=
  source ≠ "" ∧ ∃ pieces, [','].intercalate pieces = deny.toList ∧ (∀ p ∈ pieces, ',' ∉ p) ∧
    ∃ p ∈ pieces, Trims p source.toList

/-- The reading of a deny list written as a recursion is the library's splitting at commas. -/
theorem splitCommas_eq_splitOn (cs : List Char) : splitCommas cs = cs.splitOn ',' := by
  rw [List.splitOn_eq_splitOnP]
  induction cs with
  | nil => rfl
  | cons c cs ih =>
    rw [splitCommas, List.splitOnP_cons_eq_if_modifyHead, ← ih]
    by_cases hc : c = ','
    · simp [hc]
    · rw [if_neg hc, if_neg (by simpa using hc)]
      cases hs : splitCommas cs with
      | nil => exact absurd hs (splitCommas_ne_nil cs)
      | cons p ps => rfl

/-- No item of a deny list contains a comma, so that a source with a comma in it cannot be denied by
name. -/
theorem comma_not_mem_of_mem_splitCommas {cs p : List Char} (hp : p ∈ splitCommas cs) :
    ',' ∉ p := by
  induction cs generalizing p with
  | nil =>
    obtain rfl := List.mem_singleton.mp hp
    exact List.not_mem_nil
  | cons c cs ih =>
    rw [splitCommas] at hp
    by_cases hc : c = ','
    · rw [if_pos hc] at hp
      rcases List.mem_cons.mp hp with rfl | hp
      · exact List.not_mem_nil
      · exact ih hp
    · rw [if_neg hc] at hp
      cases hs : splitCommas cs with
      | nil => exact absurd hs (splitCommas_ne_nil cs)
      | cons q qs =>
        rw [hs] at hp ih
        rcases List.mem_cons.mp hp with rfl | hp
        · simpa [Ne.symm hc] using ih List.mem_cons_self
        · exact ih (List.mem_cons_of_mem _ hp)

/-- The pieces between commas are the only ones that make up the text. -/
theorem mem_splitCommas_iff {cs p : List Char} : p ∈ splitCommas cs ↔
    ∃ pieces, [','].intercalate pieces = cs ∧ (∀ q ∈ pieces, ',' ∉ q) ∧ p ∈ pieces := by
  constructor
  · intro hp
    refine ⟨splitCommas cs, ?_, fun q => comma_not_mem_of_mem_splitCommas, hp⟩
    rw [splitCommas_eq_splitOn]
    exact List.intercalate_splitOn ','
  · rintro ⟨pieces, rfl, hcommas, hp⟩
    rwa [splitCommas_eq_splitOn, List.splitOn_intercalate ',' hcommas (List.ne_nil_of_mem hp)]

theorem dropWhile_of_head? {cs : List Char} (h : ∀ c ∈ cs.head?, isBlank c = false) :
    cs.dropWhile isBlank = cs := by
  cases cs with
  | nil => rfl
  | cons c cs => exact List.dropWhile_cons_of_neg (by simp [h c rfl])

theorem isBlank_of_head?_dropWhile {cs : List Char} {c : Char}
    (hc : c ∈ (cs.dropWhile isBlank).head?) : isBlank c = false := by
  have hhead := List.head?_dropWhile_not isBlank cs
  rw [Option.mem_def.mp hc] at hhead
  exact hhead

/-- Trimming is determined by what it does: the blanks around the text go, and the rest neither
begins nor ends with one. -/
theorem trim_eq_iff {text inner : List Char} : trim text = inner ↔ Trims text inner := by
  constructor
  · rintro rfl
    obtain ⟨right, hright, hrest⟩ : ∃ right, (∀ c ∈ right, isBlank c = true) ∧
        text.dropWhile isBlank = trim text ++ right := by
      refine ⟨((text.dropWhile isBlank).reverse.takeWhile isBlank).reverse,
        fun c hc => List.mem_takeWhile_imp (List.mem_reverse.mp hc), ?_⟩
      rw [trim, ← List.reverse_append, List.takeWhile_append_dropWhile, List.reverse_reverse]
    refine ⟨⟨text.takeWhile isBlank, right, ?_, fun c => List.mem_takeWhile_imp, hright⟩,
      fun c hc => ?_, fun c hc => ?_⟩
    · rw [List.append_assoc, ← hrest, List.takeWhile_append_dropWhile]
    · -- What is left begins where the blanks in front end.
      have hhead : c ∈ (text.dropWhile isBlank).head? := by
        rw [hrest, List.head?_append, Option.mem_def.mp hc]
        rfl
      exact isBlank_of_head?_dropWhile hhead
    · rw [trim, List.getLast?_reverse] at hc
      exact isBlank_of_head?_dropWhile hc
  · rintro ⟨⟨left, right, rfl, hleft, hright⟩, hfirst, hlast⟩
    have hfront : (left ++ inner ++ right).dropWhile isBlank =
        (inner ++ right).dropWhile isBlank := by
      rw [List.append_assoc, List.dropWhile_append_of_pos hleft]
    cases inner with
    | nil =>
      rw [trim, hfront, List.nil_append, List.dropWhile_eq_nil_iff.mpr hright]
      rfl
    | cons c cs =>
      have hback : ((c :: cs) ++ right).reverse.dropWhile isBlank = (c :: cs).reverse := by
        rw [List.reverse_append, List.dropWhile_append_of_pos (by simpa using hright)]
        exact dropWhile_of_head? (by rwa [List.head?_reverse])
      have hkept : ((c :: cs) ++ right).dropWhile isBlank = (c :: cs) ++ right :=
        dropWhile_of_head? hfirst
      rw [trim, hfront, hkept, hback, List.reverse_reverse]

/-- **The parser finds the items of a deny list.** What it splits and trims is said on the other
side without splitting or trimming. -/
theorem mem_sources_iff {deny source : String} : source ∈ sources deny ↔ Names deny source := by
  have hmem : source ∈ sources deny ↔
      source ≠ "" ∧ ∃ p ∈ splitCommas deny.toList, Trims p source.toList := by
    simp only [sources, List.mem_map, List.mem_filter]
    constructor
    · rintro ⟨q, ⟨⟨p, hp, hq⟩, hne⟩, rfl⟩
      refine ⟨?_, p, hp, ?_⟩
      · simpa using hne
      · rw [String.toList_ofList]
        exact trim_eq_iff.mp hq
    · rintro ⟨hne, p, hp, htrims⟩
      refine ⟨source.toList, ⟨⟨p, hp, trim_eq_iff.mpr htrims⟩, ?_⟩, String.ofList_toList⟩
      simpa using hne
  rw [hmem, Names]
  refine and_congr_right fun _ => ⟨?_, ?_⟩
  · rintro ⟨p, hp, htrims⟩
    obtain ⟨pieces, htext, hcommas, hp⟩ := mem_splitCommas_iff.mp hp
    exact ⟨pieces, htext, hcommas, p, hp, htrims⟩
  · rintro ⟨pieces, htext, hcommas, p, hp, htrims⟩
    exact ⟨p, mem_splitCommas_iff.mpr ⟨pieces, htext, hcommas, hp⟩, htrims⟩

namespace Denials

variable {d : Denials} {source : String}

/-- A deny list takes away what it names, or everything. -/
theorem isGranted_apply {deny : String} : (d.apply deny).isGranted source = false ↔
    d.isGranted source = false ∨ deny = "*" ∨ Names deny source := by
  rw [← mem_sources_iff, apply]
  split
  · next hall => simp [isGranted, hall]
  · next hlist =>
    simp only [isGranted, hlist]
    cases d.all <;> simp [or_iff_not_imp_left]

/-- A denial takes away its parameters, or everything. -/
theorem isGranted_deny {params : List String} : (d.deny params).isGranted source = false ↔
    d.isGranted source = false ∨ params = [] ∨ source ∈ params := by
  rw [deny]
  cases params with
  | nil => simp [isGranted]
  | cons p ps =>
    simp only [isGranted]
    cases d.all <;> simp [or_iff_not_imp_left]

end Denials

end Permission

/-! ### Denials by requests -/

open Permission (Scope Names)

/-- An operation denies a source in a scope. -/
def Op.Denies (scope : Scope) (source : String) : Op → Prop
  | .apply scope' list => scope' = scope ∧ (list = "*" ∨ Names list source)
  | .deny scope' params => scope' = scope ∧ (params = [] ∨ source ∈ params)
  | _ => False

namespace Request

variable (scope : Scope) (source : String)

/-- A request denies a source in a scope: by an operation, or by a handler that denies it. -/
def Denies : Request → Prop
  | .op o => o.Denies scope source
  | .handler scope' denials => scope' = scope ∧ denials.isGranted source = false

/-- A request replaces the handler of a scope. -/
def Replaces : Request → Prop
  | .op _ => False
  | .handler scope' _ => scope' = scope

/-- Requests deny a source in a scope: one of them does, and the handler stays after it. -/
def DeniedBy (rs : List Request) : Prop :=
  ∃ before r after, rs = before ++ r :: after ∧ r.Denies scope source ∧
    ∀ r' ∈ after, ¬r'.Replaces scope

variable {scope source}

theorem not_deniedBy_nil : ¬DeniedBy scope source [] := by
  rintro ⟨before, r, after, hnil, -⟩
  simp at hnil

/-- A denial is in force if it was made by the first request and no handler replaced it since, or by
one of those that follow. -/
theorem deniedBy_cons {r : Request} {rs : List Request} : DeniedBy scope source (r :: rs) ↔
    (r.Denies scope source ∧ ∀ r' ∈ rs, ¬r'.Replaces scope) ∨ DeniedBy scope source rs := by
  constructor
  · rintro ⟨before, r', after, heq, hdenies, hstays⟩
    cases before with
    | nil =>
      obtain ⟨rfl, rfl⟩ := List.cons.inj heq
      exact Or.inl ⟨hdenies, hstays⟩
    | cons r₀ before =>
      obtain ⟨rfl, rfl⟩ := List.cons.inj heq
      exact Or.inr ⟨before, r', after, rfl, hdenies, hstays⟩
  · rintro (⟨hdenies, hstays⟩ | ⟨before, r', after, rfl, hdenies, hstays⟩)
    · exact ⟨[], r, rs, rfl, hdenies, hstays⟩
    · exact ⟨r :: before, r', after, rfl, hdenies, hstays⟩

end Request

namespace Permissions

/-- What an operation makes of the permissions. -/
def after (p : Permissions) : Op → Permissions
  | .apply scope deny => p.apply scope deny
  | .deny scope params => p.deny scope params
  | _ => p

variable {p : Permissions} {scope : Scope} {source : String}

/-- Setting the denials of a scope settles that scope and leaves the others alone. -/
theorem isGranted_set {scope' : Scope} {d : Permission.Denials} :
    (p.set scope' d).isGranted scope source =
      if scope' = scope then d.isGranted source else p.isGranted scope source := by
  split
  · next h =>
    subst h
    rw [isGranted, get_set_self]
  · next h => rw [isGranted, get_set_of_ne p d (Ne.symm h), isGranted]

/-- **An operation takes away what it denies**, and nothing else. No operation gives a permission
back, unless a handler is replaced. -/
theorem isGranted_after {op : Op} : (p.after op).isGranted scope source = false ↔
    p.isGranted scope source = false ∨ op.Denies scope source := by
  cases op with
  | apply scope' deny =>
    rw [after, Permissions.apply, isGranted_set, Op.Denies]
    split
    · next h =>
      subst h
      simp [Permission.Denials.isGranted_apply, isGranted]
    · next h => simp [h]
  | deny scope' params =>
    rw [after, Permissions.deny, isGranted_set, Op.Denies]
    split
    · next h =>
      subst h
      simp [Permission.Denials.isGranted_deny, isGranted]
    · next h => simp [h]
  | _ => simp [after, Op.Denies]

end Permissions

namespace Engine

variable {e e' : Engine} {scope : Scope} {source : String}

/-- Only applying deny lists and denying change the permissions. All other operations look at them
at most. -/
theorem permissions_after {op : Op} (h : e.after op = some e') :
    e'.permissions = e.permissions.after op := by
  cases op with
  | compile p o source heap =>
    simp only [after] at h
    split at h
    · next e'' answer hc =>
      obtain rfl := Option.some.inj h
      rcases compile_cases hc with ⟨-, rfl, -⟩ | ⟨hd, -, rfl, -⟩ | ⟨m, -, -, rfl, -⟩ |
        ⟨err, -, rfl, -⟩ <;> rfl
    · cases h
  | exec hd subject start output =>
    obtain ⟨r, hr, rfl⟩ := Option.map_eq_some_iff.mp h
    exact (ran_exec hr).permissions
  | find hd subject start =>
    obtain ⟨r, hr, rfl⟩ := Option.map_eq_some_iff.mp h
    exact (ran_find hr).permissions
  | findAll hd subject =>
    simp only [after] at h
    split at h
    · next r hf =>
      obtain ⟨r', rfl, rfl⟩ := Option.map_eq_some_iff.mp h
      exact (ran_findAll hf).permissions
    · cases h
  | _ =>
    obtain rfl := Option.some.inj h
    rfl

/-- **What a request makes of a permission.** A source is denied after the request if it was before
and the handler was not replaced, or if the request denies it. -/
theorem isGranted_serve {r : Request} (h : e.serve r = some e') :
    e'.permissions.isGranted scope source = false ↔
      (e.permissions.isGranted scope source = false ∧ ¬r.Replaces scope) ∨
        r.Denies scope source := by
  cases r with
  | op op =>
    rw [permissions_after h, Permissions.isGranted_after]
    simp [Request.Replaces, Request.Denies]
  | handler scope' denials =>
    obtain rfl := Option.some.inj h
    rw [Permissions.isGranted_set]
    split
    · next hs => simp [Request.Replaces, Request.Denies, hs]
    · next hs => simp [Request.Replaces, Request.Denies, hs]

/-- **What requests make of a permission.** The same for a row of requests, by induction: the last
replacement decides which denials count. -/
theorem isGranted_serveAll {rs : List Request} (hall : e.serveAll rs = some e') :
    e'.permissions.isGranted scope source = false ↔
      (e.permissions.isGranted scope source = false ∧ ∀ r ∈ rs, ¬r.Replaces scope) ∨
        Request.DeniedBy scope source rs := by
  induction rs generalizing e with
  | nil =>
    obtain rfl := Option.some.inj hall
    simp [Request.not_deniedBy_nil]
  | cons r rs ih =>
    obtain ⟨e₁, h₁, hrest⟩ := Option.bind_eq_some_iff.mp hall
    rw [ih hrest, isGranted_serve h₁, Request.deniedBy_cons, List.forall_mem_cons]
    tauto

/-! ### What is denied is not done -/

/-- A program that must not be run is not run. -/
structure Barred (e : Engine) (h : Handle) (m : Matcher) : Prop where
  /-- A match is refused, with nothing done and nothing written. -/
  exec : ∀ subject start output, e.exec h subject start output =
    some ⟨e, output, .error (.permissionDenied .nativeExecution)⟩
  /-- So is a search for one match. -/
  find : ∀ subject start, e.find h subject start =
    some (e, .error (.permissionDenied .nativeExecution))
  /-- So is a search for all matches, unless the output for a batch cannot be had. -/
  findAll : ∀ subject, e.findAll h subject = .ok (some (e, .error
        (if m.object.globalMode.isGlobal then .permissionDenied .nativeExecution
          else .notGlobal))) ∨
      m.object.globalMode.isGlobal = true ∧
        Memory.maxBlock < 4 * (m.object.saved * e.config.batch) ∧
        ∃ f, e.findAll h subject = .error f

/-- A batch whose output cannot be allocated breaks a rule before anything is checked but the handle
and the global mode. -/
theorem findAll_eq_error {h : Handle} {m : Matcher} {subject : Subject}
    (hget : e.store.get? h = some m) (hglobal : m.object.globalMode.isGlobal = true)
    (hmemory : Memory.maxBlock < 4 * (m.object.saved * e.config.batch)) :
    ∃ f, e.findAll h subject = .error f := by
  by_cases hsize : m.object.saved * e.config.batch < 2 ^ 64
  · exact ⟨_, findAll_of_no_memory hget hglobal hsize hmemory⟩
  · have hcount : Checked.size .mul (m.object.saved * e.config.batch) =
        .error (.overflow .mul) := if_neg hsize
    refine ⟨.overflow .mul, ?_⟩
    simp only [findAll, hget, hglobal, Bool.not_true, Bool.false_eq_true, if_false, hcount]
    rfl

/-- A source that is denied is barred in every way there is to run its code. A search for all
matches is refused at its first batch. -/
theorem barred_of_denied {h : Handle} {m : Matcher} (hget : e.store.get? h = some m)
    (hdenied : e.permissions.isGranted .nativeExecution m.object.source = false) :
    e.Barred h m := by
  have hfirst (subject : Subject) (start size : Nat) :
      (e.complaints h subject start size).head? = some (.permissionDenied .nativeExecution) := by
    simp [complaints, hget, hdenied]
  refine ⟨fun subject start output => exec_of_complaint (hfirst _ _ _),
    fun subject start => find_of_complaint (hfirst _ _ _), fun subject => ?_⟩
  by_cases hmemory : m.object.globalMode.isGlobal = true ∧
      Memory.maxBlock < 4 * (m.object.saved * e.config.batch)
  · exact Or.inr ⟨hmemory.1, hmemory.2, findAll_eq_error hget hmemory.1 hmemory.2⟩
  · refine Or.inl (findAll_of_complaint ?_ fun m' hget' hglobal => ?_)
    · simp only [searchComplaints, hget]
      cases m.object.globalMode.isGlobal with
      | true => exact hfirst _ _ _
      | false => rfl
    · obtain rfl := Option.some.inj (hget.symm.trans hget')
      exact Nat.le_of_not_lt fun hlt => hmemory ⟨hglobal, hlt⟩

/-- **A denial lasts, and denies exactly what it says.** In a session that starts with a new
engine:

* a source is granted in a scope unless an operation on that scope denied everything, or named the
  source, or a handler did that was put there, and the handler of the scope was not replaced since;
* once a source is denied for execution, no handle that has its code, compiled before or after,
  can be used to run it, for as long as the handler of the scope stays: the engine and the output
  are left as they are;
* once a source is denied for code generation, nothing is compiled for it, not even if its code is
  there, for as long as the handler of the scope stays. -/
theorem denied_of_session {c : Config} {gap : Nat} {e₀ e : Engine} {past : List Request}
    (hnew : Engine.new c gap = .ok (.ok e₀)) (hpast : e₀.serveAll past = some e) :
    (∀ scope source, e.permissions.isGranted scope source = true ↔
        ¬Request.DeniedBy scope source past) ∧
      (∀ source, e.permissions.isGranted .nativeExecution source = false →
        ∀ later e', e.serveAll later = some e' → (∀ r ∈ later, ¬r.Replaces .nativeExecution) →
          ∀ h m, e'.store.get? h = some m → m.object.source = source → e'.Barred h m) ∧
      ∀ source, e.permissions.isGranted .codeGeneration source = false →
        ∀ later e', e.serveAll later = some e' → (∀ r ∈ later, ¬r.Replaces .codeGeneration) →
          ∀ p o heap, e'.compile p o source heap =
            .ok (e', .error (.permissionDenied .codeGeneration)) := by
  refine ⟨fun scope source => ?_, fun source hdenied later e' hlater hstays h m hget hsource => ?_,
    fun source hdenied later e' hlater hstays p o heap => ?_⟩
  · rw [← Bool.not_eq_false, isGranted_serveAll hpast, (empty_of_new hnew).2]
    refine not_congr ⟨fun h => ?_, Or.inr⟩
    rcases h with ⟨hcon, -⟩ | h
    · cases scope <;> cases hcon
    · exact h
  · refine barred_of_denied hget ?_
    rw [hsource]
    exact (isGranted_serveAll hlater).mpr (Or.inl ⟨hdenied, hstays⟩)
  · have hstill : e'.permissions.isGranted .codeGeneration source = false :=
      (isGranted_serveAll hlater).mpr (Or.inl ⟨hdenied, hstays⟩)
    simp only [compile, hstill, Bool.not_false, if_true]

end Engine

/-! ### Two sessions -/

namespace Sample

/-- The second item of this deny list has blanks around it. -/
theorem names_denyList : Names " b*,\ta+ " "a+" := by
  refine ⟨by decide, [[' ', 'b', '*'], ['\t', 'a', '+', ' ']], rfl, by decide, _,
    List.mem_cons_of_mem _ List.mem_cons_self, ?_⟩
  refine ⟨⟨['\t'], [' '], rfl, List.forall_mem_singleton.mpr rfl,
    List.forall_mem_singleton.mpr rfl⟩, ?_, ?_⟩
  · rintro c ⟨⟩
    rfl
  · rintro c ⟨⟩
    rfl

/-- A new engine that has compiled one program, for a source of its own. -/
theorem exists_compiled {c : Config} {gap : Nat} {e₀ : Engine} {p : Program} {o : Options}
    {source : String} {heap : Nat → UInt64} {m : Matcher} (hnew : Engine.new c gap = .ok (.ok e₀))
    (hm : p.compile o source heap = .ok m) :
    ∃ e, e₀.serve (.op (.compile p o source heap)) = some e ∧ e.config = e₀.config ∧
      e.permissions = {} ∧ e.store.get? ⟨0⟩ = some m := by
  obtain ⟨hstore, hperm⟩ := Engine.empty_of_new hnew
  refine ⟨_, Engine.after_compile_of_new hnew hm, rfl, hperm, ?_⟩
  rw [hstore]
  rfl

end Sample

namespace Engine

/-- A program is compiled, then it is denied by a list and by name. Its code moves, and it can
neither be run nor be had again. -/
theorem denied_of_session_pusher :
    ∃ e₀ e e' : Engine, Engine.new {} 16 = .ok (.ok e₀) ∧
      e₀.serveAll [.op (.compile Sample.pusher { mode := .latin1 } "a+" Sample.heap),
        .op (.apply .nativeExecution " b*,\ta+ "), .op (.deny .codeGeneration ["a+"])] = some e ∧
      e.serveAll [.op .collectGarbage] = some e' ∧
      e.permissions.isGranted .nativeExecution "a+" = false ∧
      e.permissions.isGranted .codeGeneration "b*" = true ∧
      e'.exec ⟨0⟩ (.latin1 #[]) 0 #[7] =
        some ⟨e', #[7], .error (.permissionDenied .nativeExecution)⟩ ∧
      e'.compile Sample.pusher { mode := .latin1 } "a+" Sample.heap =
        .ok (e', .error (.permissionDenied .codeGeneration)) := by
  obtain ⟨e₀, hnew⟩ : ∃ e₀, Engine.new {} 16 = .ok (.ok e₀) := ⟨_, rfl⟩
  obtain ⟨m, hm, -⟩ := Program.exists_compile (p := Sample.pusher) (o := { mode := .latin1 })
    (n := 57) (by decide +kernel) (by decide) (by simp [Sample.pusher, Opcode.InRange])
    (by decide) "a+" Sample.heap
  obtain ⟨comp, hs⟩ := Compiled.shape_of_compile hm
  obtain ⟨e₁, hserve, -, -, hget⟩ := Sample.exists_compiled hnew hm
  let e : Engine := { e₁ with permissions :=
    (e₁.permissions.apply .nativeExecution " b*,\ta+ ").deny .codeGeneration ["a+"] }
  have hpast : e₀.serveAll [.op (.compile Sample.pusher { mode := .latin1 } "a+" Sample.heap),
      .op (.apply .nativeExecution " b*,\ta+ "), .op (.deny .codeGeneration ["a+"])] = some e := by
    rw [serveAll, hserve]
    rfl
  obtain ⟨hgranted, hbarred, hrefused⟩ := denied_of_session hnew hpast
  have hexec : e.permissions.isGranted .nativeExecution "a+" = false := by
    rw [← Bool.not_eq_true, hgranted, not_not]
    exact ⟨[_], _, [_], rfl, ⟨rfl, Or.inr Sample.names_denyList⟩, by simp [Request.Replaces]⟩
  have hcode : e.permissions.isGranted .codeGeneration "a+" = false := by
    rw [← Bool.not_eq_true, hgranted, not_not]
    exact ⟨[_, _], _, [], rfl, ⟨rfl, Or.inr List.mem_cons_self⟩, by simp⟩
  have hother : e.permissions.isGranted .codeGeneration "b*" = true := by
    rw [hgranted]
    simp [Request.deniedBy_cons, Request.not_deniedBy_nil, Request.Denies, Op.Denies]
  have hget' : e.collectGarbage.1.store.get? ⟨0⟩ = some m.relocated := by
    change e₁.store.relocateAll.get? ⟨0⟩ = _
    rw [Store.get?_relocateAll, hget]
    rfl
  refine ⟨e₀, e, e.collectGarbage.1, hnew, hpast, rfl, hexec, hother, ?_, ?_⟩
  · exact (hbarred "a+" hexec [.op .collectGarbage] _ rfl (by simp [Request.Replaces]) ⟨0⟩
      m.relocated hget' hs.source).exec _ _ _
  · exact hrefused "a+" hcode [.op .collectGarbage] _ rfl (by simp [Request.Replaces]) _ _ _

/-- **Two ways around a denial.** After everything was denied for execution, a search for all
matches with batches of `2 ^ 61` matches does not come to the error: the output for a batch cannot
be had. And with another handler everything is granted again. -/
theorem granted_after_denial :
    ∃ e₀ e e' : Engine, Engine.new { batch := 2 ^ 61 } 16 = .ok (.ok e₀) ∧
      e₀.serveAll [.op (.compile Sample.blank Sample.everywhere "" Sample.heap),
        .op (.deny .nativeExecution [])] = some e ∧
      e.permissions.isGranted .nativeExecution "" = false ∧
      e.findAll ⟨0⟩ Sample.face = .error .capacityOverflow ∧
      e.serve (.handler .nativeExecution {}) = some e' ∧
      e'.permissions.isGranted .nativeExecution "" = true := by
  obtain ⟨e₀, hnew⟩ : ∃ e₀, Engine.new { batch := 2 ^ 61 } 16 = .ok (.ok e₀) := ⟨_, rfl⟩
  obtain ⟨m, m', hm, -⟩ := Sample.exists_compile_blank
  obtain ⟨comp, hs⟩ := Compiled.shape_of_compile hm
  obtain ⟨e₁, hserve, hconfig, hperm, hget⟩ := Sample.exists_compiled hnew hm
  have hsaved : m.object.saved = 2 := hs.saved
  have hglobal : m.object.globalMode.isGlobal = true := by
    rw [hs.globalMode]
    rfl
  have hbatch : e₁.config.batch = 2 ^ 61 := by
    obtain rfl := Except.ok.inj (Except.ok.inj hnew)
    rw [hconfig]
  refine ⟨e₀, { e₁ with permissions := e₁.permissions.deny .nativeExecution [] }, _, hnew, ?_, ?_,
    ?_, rfl, ?_⟩
  · rw [serveAll, hserve]
    rfl
  · rw [hperm]
    rfl
  · exact findAll_of_no_memory hget hglobal (by rw [hsaved, hbatch]; decide)
      (by rw [hsaved, hbatch]; decide)
  · rw [hperm]
    rfl

end Engine

end NativeMatcher
