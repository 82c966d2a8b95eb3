import HackVM.CommandLine
import HackVM.Proofs.Grammar

/-!
# The runs that can be asked for

With the value of a setting behind `=` and the source behind `--`, no text is taken for an
option that is none. So a run can be asked for if none of its paths is empty; and since each
step of the reader checks the path that it adds, no other run is ever asked for.
-/

namespace HackVM.CommandLine

/-! ## Every path that is read is named -/

/-- No path that has been read is empty. -/
structure Draft.Named (d : Draft) : Prop where
  source : ∀ p ∈ d.source, p.text ≠ ""
  output : ∀ p ∈ d.output, p.text ≠ ""
  config : ∀ p ∈ d.config, p.text ≠ ""

/-- How reading goes on: from a named draft, or with an answer that asks for no run. -/
def Effect.Named : Effect → Prop
  | go d => d.Named
  | await _ d => d.Named
  | answer r => ∀ i, r ≠ .translate i

theorem named_of_oncePath {name value : String} {old p : Option Path}
    (h : oncePath name value old = .ok p) : ∀ q ∈ p, q.text ≠ "" := by
  rw [oncePath] at h
  split at h
  · cases h
  split at h
  · cases h
  · rename_i hv _
    cases h
    rintro _ ⟨⟩
    exact hv

theorem Setting.named_of_apply {s : Setting} {value : String} {d d' : Draft} (hd : d.Named)
    (h : s.apply value d = .ok d') : d'.Named := by
  cases s with
  | output =>
    obtain ⟨p, hp, rfl⟩ := map_eq_ok_iff.1 h
    exact ⟨hd.source, named_of_oncePath hp, hd.config⟩
  | config =>
    obtain ⟨p, hp, rfl⟩ := map_eq_ok_iff.1 h
    exact ⟨hd.source, hd.output, named_of_oncePath hp⟩
  | bootstrap =>
    rw [apply] at h
    split at h
    · cases h
    split at h
    · cases h
    split at h <;> cases h
    exact ⟨hd.source, hd.output, hd.config⟩

theorem named_of_addSource {value : String} {d d' : Draft} (hd : d.Named)
    (h : addSource value d = .ok d') : d'.Named := by
  rw [addSource] at h
  split at h
  · cases h
  split at h
  · cases h
  · rename_i hv _
    cases h
    refine ⟨?_, hd.output, hd.config⟩
    rintro _ ⟨⟩
    exact hv

theorem Switch.named_of_apply {s : Switch} {d : Draft} {e : Effect} (hd : d.Named)
    (h : s.apply d = .ok e) : e.Named := by
  cases s with
  | noComments =>
    rw [apply] at h
    split at h <;> cases h
    exact ⟨hd.source, hd.output, hd.config⟩
  | verbose =>
    cases h
    exact ⟨hd.source, hd.output, hd.config⟩
  | version =>
    cases h
    nofun
  | help =>
    cases h
    nofun

theorem named_of_long {text : List Char} {d : Draft} {e : Effect} (hd : d.Named)
    (h : long text d = .ok e) : e.Named := by
  rw [long] at h
  split at h
  split at h
  · cases h
  · obtain ⟨d', hd', rfl⟩ := map_eq_ok_iff.1 h
    exact Setting.named_of_apply hd hd'
  · cases h
    exact hd
  · cases h
  · exact Switch.named_of_apply hd h

theorem named_of_short {cs : List Char} {d : Draft} {e : Effect} (hd : d.Named)
    (h : short cs d = .ok e) : e.Named := by
  induction cs generalizing d with
  | nil =>
    cases h
    exact hd
  | cons c cs ih =>
    rw [short] at h
    split at h
    · cases h
    · split at h
      · cases h
        exact hd
      · obtain ⟨d', hd', rfl⟩ := map_eq_ok_iff.1 h
        exact Setting.named_of_apply hd hd'
    · obtain ⟨e', he', h⟩ := bind_eq_ok_iff.1 h
      have hn := Switch.named_of_apply hd he'
      split at h
      · exact ih hn h
      · cases h
        exact hn

/-- The draft from which the run is asked for. -/
def Draft.full (i : Invocation) : Draft :=
  ⟨some i.source, i.output, i.config, i.noComments, i.bootstrap, i.verbosity⟩

theorem Draft.eq_full_of_finish {d : Draft} {i : Invocation}
    (h : d.finish = .ok (.translate i)) : d = full i := by
  obtain ⟨_ | source, output, config, noComments, bootstrap, verbosity⟩ := d
  · cases h
  · cases h
    rfl

/-- Reading goes on with the arguments `rest`. -/
def Effect.resume (plain : Bool) (rest : List String) : Effect → Except UsageError Request
  | go d => readFrom plain none d rest
  | await s d => readFrom plain (some s) d rest
  | answer r => .ok r

/-- What the options in one argument do. -/
def readOptions (text : List Char) (d : Draft) : Except UsageError Effect :=
  match text with
  | '-' :: '-' :: name => long name d
  | _ => short text.tail d

theorem readFrom_option {a : String} (ho : isOption a.toList) (ha : a ≠ "--") (d : Draft)
    (rest : List String) :
    readFrom false none d (a :: rest) =
      readOptions a.toList d >>= Effect.resume false rest := by
  rw [readFrom, if_neg (by simp [ho]), if_neg ha]
  split
  · rename_i name hname
    rw [hname]
    rfl
  · rename_i hname
    rw [readOptions.eq_2 _ _ hname]
    rfl

theorem named_of_readOptions {text : List Char} {d : Draft} {e : Effect} (hd : d.Named)
    (h : readOptions text d = .ok e) : e.Named := by
  unfold readOptions at h
  split at h
  · exact named_of_long hd h
  · exact named_of_short hd h

theorem named_of_readFrom {plain : Bool} {awaiting : Option Setting} {d : Draft}
    {args : List String} {i : Invocation} (hd : d.Named)
    (h : readFrom plain awaiting d args = .ok (.translate i)) : (Draft.full i).Named := by
  -- each argument may change all that the reader carries, so the induction is over all of it
  induction args generalizing plain awaiting d with
  | nil =>
    cases awaiting with
    | some s => cases h
    | none => exact Draft.eq_full_of_finish h ▸ hd
  | cons a rest ih =>
    cases awaiting with
    | some s =>
      rw [readFrom] at h
      split at h
      · cases h
      · obtain ⟨d', hd', h⟩ := bind_eq_ok_iff.1 h
        exact ih (Setting.named_of_apply hd hd') h
    | none =>
      by_cases hs : plain || !isOption a.toList
      · rw [readFrom, if_pos hs] at h
        obtain ⟨d', hd', h⟩ := bind_eq_ok_iff.1 h
        exact ih (named_of_addSource hd hd') h
      obtain ⟨rfl, ho⟩ : plain = false ∧ isOption a.toList = true := by simpa using hs
      by_cases ha : a = "--"
      · subst ha
        exact ih hd h
      · rw [readFrom_option ho ha] at h
        obtain ⟨e, he, h⟩ := bind_eq_ok_iff.1 h
        have hn := named_of_readOptions hd he
        cases e with
        | go d' => exact ih hn h
        | await s d' => exact ih hn h
        | answer r =>
          cases h
          exact absurd rfl (hn i)

/-! ## Every such run can be asked for -/

/-- A setting with its value in one argument. -/
def Setting.argument (s : Setting) (value : String) : String := s.name ++ "=" ++ value

/-- The arguments in which a run is asked for. -/
def arguments (i : Invocation) : List String :=
  i.output.toList.map (fun p => Setting.output.argument p.text) ++
    (i.config.toList.map (fun p => Setting.config.argument p.text) ++
      ((if i.noComments then [Switch.noComments.name] else []) ++
        (i.bootstrap.toList.map (fun p => Setting.bootstrap.argument p.keyword) ++
          (List.replicate i.verbosity Switch.verbose.name ++ ["--", i.source.text]))))

/-- The long option of the setting, without its dashes. -/
def Setting.key (s : Setting) : List Char := s.name.toList.drop 2

theorem Setting.toList_argument (s : Setting) (value : String) :
    (s.argument value).toList = '-' :: '-' :: (s.key ++ '=' :: value.toList) := by
  have hn : s.name.toList = '-' :: '-' :: s.key := by cases s <;> rfl
  simp [argument, hn]

theorem long_key (s : Setting) (value : List Char) (d : Draft) :
    long (s.key ++ '=' :: value) d = (s.apply (String.ofList value) d).map .go := by
  have hall : s.key.all (· != '=') = true := by cases s <;> rfl
  have hk : ∀ c ∈ s.key, c ≠ '=' := fun c hc => by simpa using List.all_eq_true.1 hall c hc
  rw [long, Text.cut?_append hk]
  cases s <;> rfl

theorem readFrom_argument (s : Setting) (value : String) (d : Draft) (rest : List String) :
    readFrom false none d (s.argument value :: rest) =
      s.apply value d >>= fun d => readFrom false none d rest := by
  have ha := s.toList_argument value
  have ho : isOption (s.argument value).toList := by simp [ha, isOption]
  have hdd : s.argument value ≠ "--" := by
    intro h
    rw [h] at ha
    cases s <;> simp [Setting.key, Setting.name] at ha
  rw [readFrom_option ho hdd, ha, readOptions, long_key, String.ofList_toList]
  cases s.apply value d <;> rfl

/-- The argument stands there if the field has a value, and then it sets the field. -/
theorem readFrom_setting {α : Type} (s : Setting) {o : Option α} {text : α → String} {d d' : Draft}
    (hnone : o = none → d = d') (hsome : ∀ x ∈ o, s.apply (text x) d = .ok d')
    (rest : List String) :
    readFrom false none d (o.toList.map (fun x => s.argument (text x)) ++ rest) =
      readFrom false none d' rest := by
  cases o with
  | none => rw [hnone rfl, Option.toList_none, List.map_nil, List.nil_append]
  | some x =>
    rw [Option.toList_some, List.map_singleton, List.singleton_append, readFrom_argument,
      hsome x rfl]
    rfl

theorem readFrom_noComments {d : Draft} (h : d.noComments = false) (asked : Bool)
    (rest : List String) :
    readFrom false none d ((if asked then [Switch.noComments.name] else []) ++ rest) =
      readFrom false none { d with noComments := asked } rest := by
  obtain ⟨source, output, config, noComments, policy, verbosity⟩ := d
  cases h
  cases asked <;> rfl

theorem readFrom_verbose (d : Draft) (n : Nat) (rest : List String) :
    readFrom false none d (List.replicate n Switch.verbose.name ++ rest) =
      readFrom false none { d with verbosity := d.verbosity + n } rest := by
  induction n generalizing d with
  | zero => rfl
  | succ n ih =>
    have hs : readFrom false none d
          (Switch.verbose.name :: (List.replicate n Switch.verbose.name ++ rest)) =
        readFrom false none { d with verbosity := d.verbosity + 1 }
          (List.replicate n Switch.verbose.name ++ rest) := rfl
    rw [List.replicate_succ, List.cons_append, hs, ih, Nat.add_assoc, Nat.add_comm 1 n]

theorem readFrom_source {d : Draft} {p : Path} (hd : d.source = none) (hp : p.text ≠ "") :
    readFrom false none d ["--", p.text] = { d with source := some p }.finish := by
  have h : addSource p.text d = .ok { d with source := some p } := by
    rw [addSource, if_neg hp, hd]
    rfl
  have hs : readFrom false none d ["--", p.text] =
      addSource p.text d >>= fun d => readFrom true none d [] := rfl
  rw [hs, h]
  rfl

theorem oncePath_none {name value : String} (h : value ≠ "") :
    oncePath name value none = .ok (some ⟨value⟩) := by
  rw [oncePath, if_neg h]
  rfl

theorem read_arguments {i : Invocation} (h : (Draft.full i).Named) :
    read (arguments i) = .ok (.translate i) := by
  obtain ⟨source, output, config, noComments, policy, verbosity⟩ := i
  let d₁ : Draft := { Draft.empty with output := output }
  let d₂ : Draft := { d₁ with config := config }
  let d₃ : Draft := { d₂ with noComments := noComments }
  let d₄ : Draft := { d₃ with bootstrap := policy }
  have h₁ : ∀ p ∈ output, Setting.output.apply p.text .empty = .ok d₁ := by
    rintro p ⟨⟩
    rw [Setting.apply, Draft.empty, oncePath_none (h.output p rfl)]
    rfl
  have h₂ : ∀ p ∈ config, Setting.config.apply p.text d₁ = .ok d₂ := by
    rintro p ⟨⟩
    simp only [Setting.apply, d₁, Draft.empty, oncePath_none (h.config p rfl)]
    rfl
  have h₄ : ∀ p ∈ policy, Setting.bootstrap.apply p.keyword d₃ = .ok d₄ := by
    rintro p ⟨⟩
    have hp : p.keyword ≠ "" := by cases p <;> decide
    simp only [Setting.apply, if_neg hp, BootstrapPolicy.read_keyword]
    rfl
  rw [read, arguments, readFrom_setting .output (by rintro rfl; rfl) h₁,
    readFrom_setting .config (by rintro rfl; rfl) h₂, readFrom_noComments rfl,
    readFrom_setting .bootstrap (by rintro rfl; rfl) h₄, readFrom_verbose,
    readFrom_source rfl (h.source source rfl)]
  simp [Draft.finish, d₁, d₂, d₃, d₄, Draft.empty]

/-- Exactly the runs whose paths are not empty can be asked for. -/
theorem exists_read_iff {i : Invocation} :
    (∃ args, read args = .ok (.translate i)) ↔ (Draft.full i).Named := by
  constructor
  · rintro ⟨args, h⟩
    have hempty : Draft.empty.Named := ⟨by simp [Draft.empty], by simp [Draft.empty], by
      simp [Draft.empty]⟩
    exact named_of_readFrom hempty h
  · intro h
    exact ⟨arguments i, read_arguments h⟩

example : read ["--output=-q.asm", "--bootstrap=never", "--verbose", "--", "S.vm"] =
    .ok (.translate ⟨⟨"S.vm"⟩, some ⟨"-q.asm"⟩, none, false, some .never, 1⟩) := rfl

end HackVM.CommandLine
