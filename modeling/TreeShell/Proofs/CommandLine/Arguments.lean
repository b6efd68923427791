import TreeShell.CommandLine.Options

/-! # An argument more

What accepted arguments ask for, by what each of them says. Where the option for plain text is
accepted among others, these are accepted without it and ask for the same but for that option. -/

namespace TreeShell.CommandLine

/-- Starting from the given options, the arguments are accepted and ask for the request. -/
inductive Reads : Options → List String → Request → Prop where
  | done {o} : Reads o [] (.run o)
  | stop {o arg} (harg : Arg.ofString arg = .stop) : Reads o [arg] (.run o)
  | help {o arg rest} (harg : Arg.ofString arg = .help) : Reads o (arg :: rest) .help
  | version {o arg rest} (harg : Arg.ofString arg = .version) : Reads o (arg :: rest) .version
  | json {o : Options} {arg rest r} (harg : Arg.ofString arg = .json) (hnew : o.json = false)
    (hrest : Reads { o with json := true } rest r) : Reads o (arg :: rest) r
  | plain {o : Options} {arg rest r} (harg : Arg.ofString arg = .plain) (hnew : o.plain = false)
    (hrest : Reads { o with plain := true } rest r) : Reads o (arg :: rest) r
  | own {o p : Options} {arg param value rest r} (harg : Arg.ofString arg = .param param (some value))
    (hset : o.set value param = .ok p) (hrest : Reads p rest r) : Reads o (arg :: rest) r
  | next {o p : Options} {arg param value rest r} (harg : Arg.ofString arg = .param param none)
    (hvalue : isValue value = true) (hset : o.set value param = .ok p) (hrest : Reads p rest r) :
    Reads o (arg :: value :: rest) r

theorem reads_of_read {o : Options} {args : List String} {r : Request}
    (h : o.read args = .ok r) : Reads o args r := by
  fun_induction Options.read o args with
  | case1 o =>
    obtain rfl := Except.ok.inj h
    exact .done
  | case2 => cases h
  | case3 o arg rest harg =>
    obtain rfl := Except.ok.inj h
    exact .help harg
  | case4 o arg rest harg =>
    obtain rfl := Except.ok.inj h
    exact .version harg
  | case5 o arg harg =>
    obtain rfl := Except.ok.inj h
    exact .stop harg
  | case6 => cases h
  | case7 => cases h
  | case8 o arg rest harg hnew ih => exact .json harg (Bool.eq_false_iff.2 hnew) (ih h)
  | case9 => cases h
  | case10 o arg rest harg hnew ih => exact .plain harg (Bool.eq_false_iff.2 hnew) (ih h)
  | case11 => cases h
  | case12 o arg rest param value harg p hset ih => exact .own harg hset (ih h)
  | case13 => cases h
  | case14 => cases h
  | case15 o arg param harg value rest hvalue p hset ih => exact .next harg hvalue hset (ih h)
  | case16 => cases h

theorem read_of_reads {o : Options} {args : List String} {r : Request} (h : Reads o args r) :
    o.read args = .ok r := by
  induction h with
  | done => rfl
  | stop harg => unfold Options.read; simp only [harg]
  | help harg => unfold Options.read; simp only [harg]
  | version harg => unfold Options.read; simp only [harg]
  | json harg hnew hrest ih =>
    unfold Options.read
    simp only [harg, hnew, ih, Bool.false_eq_true, if_false]
  | plain harg hnew hrest ih =>
    unfold Options.read
    simp only [harg, hnew, ih, Bool.false_eq_true, if_false]
  | own harg hset hrest ih =>
    unfold Options.read
    simp only [harg, hset, ih]
  | next harg hvalue hset hrest ih =>
    unfold Options.read
    simp only [harg, hvalue, hset, ih, if_true]

theorem read_eq_ok_iff {o : Options} {args : List String} {r : Request} :
    o.read args = .ok r ↔ Reads o args r :=
  ⟨reads_of_read, read_of_reads⟩

/-- Values have nothing to do with the options that take none. -/
theorem set_flags (o : Options) (json plain : Bool) (value : String) (param : Param) :
    ({ o with json, plain } : Options).set value param =
      (o.set value param).map fun p => { p with json, plain } := by
  cases param with
  | command => simp only [Options.set, fill]; cases o.command? <;> rfl
  | cwd => simp only [Options.set, fill]; cases o.cwd? <;> rfl
  | tree =>
    simp only [Options.set, fill]
    cases nonempty .tree value <;> cases o.tree? <;> rfl
  | settingsDir =>
    simp only [Options.set, fill]
    cases nonempty .settingsDir value <;> cases o.settingsDir? <;> rfl
  | latency =>
    simp only [Options.set, fill]
    cases milliseconds? value <;> cases o.latency? <;> rfl
  | suggest => simp only [Options.set, fill]; cases o.suggest? <;> rfl

theorem flags_of_set {o p : Options} {value : String} {param : Param}
    (h : o.set value param = .ok p) : p.json = o.json ∧ p.plain = o.plain := by
  have hsame := set_flags o o.json o.plain value param
  rw [h] at hsame
  have hp : p = { p with json := o.json, plain := o.plain } := Except.ok.inj hsame
  rw [hp]
  exact ⟨rfl, rfl⟩

/-! ## The option for records -/

theorem eq_of_atEquals {cs : List Char} {name : String} (h : atEquals cs = (name, none)) :
    cs = name.toList := by
  obtain ⟨rfl, hrest⟩ := Prod.mk.inj h
  have hnil : cs.dropWhile (· != '=') = [] := by
    split at hrest
    · assumption
    · cases hrest
  have hcs := List.takeWhile_append_dropWhile (p := (· != '=')) (l := cs)
  rw [hnil, List.append_nil] at hcs
  rw [String.toList_ofList, hcs]

theorem eq_of_ofLong_json {cs : List Char} (h : Arg.ofLong cs = .json) :
    cs = "json".toList := by
  unfold Arg.ofLong at h
  split at h
  · rename_i hcs
    exact eq_of_atEquals hcs
  · cases h
  · cases h
  · cases h
  · split at h <;> cases h

theorem eq_of_ofString_json {arg : String} (h : Arg.ofString arg = .json) : arg = "--json" := by
  unfold Arg.ofString at h
  split at h <;> try cases h
  rename_i cs _ harg
  rw [← String.toList_inj, harg, eq_of_ofLong_json h]
  rfl

/-- Whether the request leaves the option for records out. -/
def Request.isText : Request → Bool
  | run o => !o.json
  | _ => true

/-- The option for records is not set unless it is given. -/
theorem Reads.isText {o : Options} {args : List String} {r : Request} (h : Reads o args r)
    (ho : o.json = false) (hargs : "--json" ∉ args) : r.isText = true := by
  induction h with
  | done => simp [Request.isText, ho]
  | stop harg => simp [Request.isText, ho]
  | help harg => rfl
  | version harg => rfl
  | json harg hnew hrest ih =>
    rw [eq_of_ofString_json harg] at hargs
    exact absurd List.mem_cons_self hargs
  | plain harg hnew hrest ih => exact ih ho fun h => hargs (List.mem_cons_of_mem _ h)
  | own harg hset hrest ih =>
    exact ih ((flags_of_set hset).1.trans ho) fun h => hargs (List.mem_cons_of_mem _ h)
  | next harg hvalue hset hrest ih =>
    exact ih ((flags_of_set hset).1.trans ho) fun h =>
      hargs (List.mem_cons_of_mem _ (List.mem_cons_of_mem _ h))

/-! ## The option for plain text -/

/-- The options with the one for plain text. -/
def Options.plainly (o : Options) : Options := { o with plain := true }

def Request.plainly : Request → Request
  | run o => .run o.plainly
  | r => r

/-- Whether the request leaves the option for plain text out. -/
def Request.isColored : Request → Bool
  | run o => !o.plain
  | _ => true

theorem exists_set_of_plain {o p : Options} {value : String} {param : Param}
    (ho : o.plain = false) (h : o.plainly.set value param = .ok p) :
    ∃ q, o.set value param = .ok q ∧ q.plain = false ∧ p = q.plainly := by
  have hflags := set_flags o o.json true value param
  cases hq : o.set value param with
  | error e =>
    rw [hq] at hflags
    cases h.symm.trans hflags
  | ok q =>
    rw [hq] at hflags
    obtain ⟨hjson, hplain⟩ := flags_of_set hq
    refine ⟨q, rfl, hplain.trans ho, ?_⟩
    rw [Except.ok.inj (h.symm.trans hflags), ← hjson]
    rfl

/-- What is accepted once the option for plain text is set is accepted without it. -/
theorem Reads.colored {o p : Options} {args : List String} {r : Request} (h : Reads p args r)
    (hp : p = o.plainly) (ho : o.plain = false) :
    ∃ colored, Reads o args colored ∧ colored.isColored = true ∧ r = colored.plainly := by
  induction h generalizing o with
  | done => exact ⟨.run o, .done, by simp [Request.isColored, ho], by rw [hp]; rfl⟩
  | stop harg => exact ⟨.run o, .stop harg, by simp [Request.isColored, ho], by rw [hp]; rfl⟩
  | help harg => exact ⟨.help, .help harg, rfl, rfl⟩
  | version harg => exact ⟨.version, .version harg, rfl, rfl⟩
  | json harg hnew hrest ih =>
    subst hp
    obtain ⟨colored, hreads, hr⟩ := ih (o := { o with json := true }) rfl ho
    exact ⟨colored, .json harg hnew hreads, hr⟩
  | plain harg hnew hrest ih =>
    subst hp
    cases hnew
  | own harg hset hrest ih =>
    subst hp
    obtain ⟨q, hq, hplain, hp⟩ := exists_set_of_plain ho hset
    obtain ⟨colored, hreads, hr⟩ := ih hp hplain
    exact ⟨colored, .own harg hq hreads, hr⟩
  | next harg hvalue hset hrest ih =>
    subst hp
    obtain ⟨q, hq, hplain, hp⟩ := exists_set_of_plain ho hset
    obtain ⟨colored, hreads, hr⟩ := ih hp hplain
    exact ⟨colored, .next harg hvalue hq hreads, hr⟩

/-- Arguments that do not start with the option for plain text have it further behind. -/
theorem exists_of_cons_eq_append {arg : String} {rest before after : List String}
    (hargs : arg :: rest = before ++ "--plain" :: after) (harg : Arg.ofString arg ≠ .plain) :
    ∃ behind, before = arg :: behind ∧ rest = behind ++ "--plain" :: after := by
  cases before with
  | nil =>
    obtain ⟨rfl, -⟩ := List.cons.inj hargs
    exact absurd rfl harg
  | cons first behind =>
    obtain ⟨rfl, hrest⟩ := List.cons.inj hargs
    exact ⟨behind, rfl, hrest⟩

/-- What is accepted with the option for plain text among the arguments is accepted without it. -/
theorem Reads.without {o : Options} {args before after : List String} {r : Request}
    (h : Reads o args r) (hargs : args = before ++ "--plain" :: after) :
    ∃ colored, Reads o (before ++ after) colored ∧ colored.isColored = true ∧
      r = colored.plainly := by
  -- Every rule reads what stands first in `before`, until nothing is left before the option.
  induction h generalizing before with
  | done => cases before <;> cases hargs
  | stop harg =>
    obtain ⟨behind, -, hnone⟩ := exists_of_cons_eq_append hargs (by simp [harg])
    cases behind <;> cases hnone
  | help harg =>
    obtain ⟨behind, rfl, -⟩ := exists_of_cons_eq_append hargs (by simp [harg])
    exact ⟨.help, .help harg, rfl, rfl⟩
  | version harg =>
    obtain ⟨behind, rfl, -⟩ := exists_of_cons_eq_append hargs (by simp [harg])
    exact ⟨.version, .version harg, rfl, rfl⟩
  | json harg hnew hrest ih =>
    obtain ⟨behind, rfl, hbehind⟩ := exists_of_cons_eq_append hargs (by simp [harg])
    obtain ⟨colored, hreads, hr⟩ := ih hbehind
    exact ⟨colored, .json harg hnew hreads, hr⟩
  | plain harg hnew hrest ih =>
    cases before with
    | nil =>
      obtain ⟨-, rfl⟩ := List.cons.inj hargs
      exact hrest.colored rfl hnew
    | cons first behind =>
      obtain ⟨rfl, hbehind⟩ := List.cons.inj hargs
      obtain ⟨colored, hreads, hr⟩ := ih hbehind
      exact ⟨colored, .plain harg hnew hreads, hr⟩
  | own harg hset hrest ih =>
    obtain ⟨behind, rfl, hbehind⟩ := exists_of_cons_eq_append hargs (by simp [harg])
    obtain ⟨colored, hreads, hr⟩ := ih hbehind
    exact ⟨colored, .own harg hset hreads, hr⟩
  | next harg hvalue hset hrest ih =>
    obtain ⟨behind, rfl, hbehind⟩ := exists_of_cons_eq_append hargs (by simp [harg])
    cases behind with
    | nil =>
      -- The option would stand where a value must.
      obtain ⟨rfl, -⟩ := List.cons.inj hbehind
      cases hvalue
    | cons value behind =>
      obtain ⟨rfl, hbeyond⟩ := List.cons.inj hbehind
      obtain ⟨colored, hreads, hr⟩ := ih hbeyond
      exact ⟨colored, .next harg hvalue hset hreads, hr⟩

end TreeShell.CommandLine
