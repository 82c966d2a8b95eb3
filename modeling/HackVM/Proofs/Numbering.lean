import HackVM.Proofs.Uniqueness

/-!
# Numbers go with positions

Each line becomes one fragment. The numbering that a line meets says how many calls and
comparisons stand on the lines in front of it, in its own unit and in all units before; a call
or a comparison takes the next number, and no other command depends on the numbering. A unit
that fails hands on what the lines in front of the failure have counted.
-/

namespace HackVM

open Assembly Instruction Sequence Text

/-! ## Counting -/

namespace Numbering

/-- The numbering behind commands that are expanded one after the other. -/
def past (n : Numbering) (cs : List Command) : Numbering :=
  ⟨n.calls + cs.countP (·.isCall), n.comparisons + cs.countP (·.isComparison)⟩

@[simp] theorem past_nil (n : Numbering) : n.past [] = n := rfl

theorem past_cons (n : Numbering) (c : Command) (cs : List Command) :
    n.past (c :: cs) = (n.after c).past cs := by
  simp only [past, calls_after, comparisons_after, List.countP_cons, mk.injEq]
  omega

theorem past_append (n : Numbering) (cs ds : List Command) :
    n.past (cs ++ ds) = (n.past cs).past ds := by
  simp only [past, List.countP_append, mk.injEq]
  omega

end Numbering

/-- A site is expanded with the numbering behind the sites in front of it. -/
theorem getElem?_sitePieces (n : Numbering) (ss : List Site) (k : Nat) :
    (sitePieces n ss)[k]? =
      ss[k]?.map fun s => .command s (n.past ((ss.take k).map (·.command))) := by
  induction ss generalizing n k with
  | nil => rfl
  | cons s ss ih =>
    cases k with
    | zero => rfl
    | succ k =>
      rw [sitePieces, List.getElem?_cons_succ, List.getElem?_cons_succ, ih, List.take_succ_cons,
        List.map_cons, Numbering.past_cons]

/-! ## Code with numbers -/

namespace Expansion

/-- The part of a call between its return address and its jump: the pointers are saved and the
new frame begins. -/
def enterFrame (args : Nat) : List Instruction :=
  Register.saved.flatMap (fun r => pushCell r.address) ++
    (fetchD Register.sp ++ setA MemoryMap.frameHeader ++ [subA] ++ setA args ++ [subA] ++
      storeD Register.arg) ++
    move Register.sp Register.lcl

/-- The call with the number `k`: it pushes its return label first, and declares it right behind
its jump. -/
def numberedCall (k : Nat) (name : String) (args : Nat) : List Instruction :=
  let back := name ++ "$ret." ++ decimal k
  pushValue (.symbol back) ++ enterFrame args ++ (jumpTo name ++ [label back])

/-- The comparison with the number `k`. -/
def numberedComparison (k : Nat) (jump : Jump) : List Instruction :=
  popD ++ popA ++ [subFromA] ++
    testD jump ("CMP$TRUE." ++ decimal k) ("CMP$END." ++ decimal k) ++ pushD

theorem call_eq_numberedCall (n : Numbering) (name : String) (args : Nat) :
    call n name args = numberedCall (n.calls + 1) name args := by
  simp only [call_eq, openFrame, numberedCall, enterFrame, Numbering.returnLabel,
    List.append_assoc]

theorem comparison_eq_numberedComparison (n : Numbering) (jump : Jump) :
    comparison n jump = numberedComparison (n.comparisons + 1) jump := rfl

/-- The code of a site, when so many calls and comparisons come before it. -/
structure Numbered (s : Site) (calls comparisons : Nat) (code : List Instruction) : Prop where
  call : ∀ name args, s.command = .call name args → code = numberedCall (calls + 1) name args
  comparison : ∀ op jump, s.command = .arithmetic op → op.comparison? = some jump →
    code = numberedComparison (comparisons + 1) jump
  /-- Any other command has the same code whatever comes before it. -/
  other : s.command.isCall = false → s.command.isComparison = false →
    ∀ n, s.command.expand s.place n = .ok code

end Expansion

open Expansion

/-- Only calls and comparisons look at the numbering. -/
theorem Command.expand_congr {c : Command} (hc : c.isCall = false) (hm : c.isComparison = false)
    (p : Place) (n m : Numbering) : c.expand p n = c.expand p m := by
  cases c with
  | arithmetic op =>
    cases op with
    | eq | gt | lt => cases hm
    | _ => rfl
  | call name args => cases hc
  | _ => rfl

theorem Site.numbered_of_expand {s : Site} {n : Numbering} {code : List Instruction}
    (h : s.command.expand s.place n = .ok code) : Numbered s n.calls n.comparisons code := by
  refine ⟨?_, ?_, ?_⟩
  · intro name args hc
    rw [hc] at h
    rw [← call_eq_numberedCall]
    exact (Except.ok.inj h).symm
  · intro op jump ho hj
    rw [ho] at h
    rw [← comparison_eq_numberedComparison]
    cases op <;> cases hj <;> exact (Except.ok.inj h).symm
  · intro hc hm k
    rw [← h]
    exact Command.expand_congr hc hm s.place k n

/-! ## Fragments -/

/-- Each site has its fragment, with code that is numbered by the sites in front of it. In front of
the first are so many calls and comparisons as `n` says. -/
def NumberedFrom (o : Options) (n : Numbering) (ss : List Site) (fs : List Fragment) : Prop :=
  fs.length = ss.length ∧
    ∀ k s, ss[k]? = some s →
      ∃ f code, fs[k]? = some f ∧ f.instructions = SourceUnit.quoted o s.text code ∧
        Numbered s (n.calls + (ss.take k).countP (·.command.isCall))
          (n.comparisons + (ss.take k).countP (·.command.isComparison)) code

theorem length_sitePieces (n : Numbering) (ss : List Site) :
    (sitePieces n ss).length = ss.length := by
  induction ss generalizing n with
  | nil => rfl
  | cons s ss ih => rw [sitePieces, List.length_cons, List.length_cons, ih]

/-- Fragments with the instructions of the pieces of sites are numbered by the sites. -/
theorem numberedFrom_of_map_eq {o : Options} {n : Numbering} {ss : List Site} {fs : List Fragment}
    (hf : fs.map (·.instructions) =
      (sitePieces n ss).map fun q => SourceUnit.quoted o q.text q.code)
    (ha : ∀ s ∈ ss, s.Accepted) : NumberedFrom o n ss fs := by
  constructor
  · have hl := congrArg List.length hf
    rwa [List.length_map, List.length_map, length_sitePieces] at hl
  · intro k s hs
    let before := n.past ((ss.take k).map (·.command))
    obtain ⟨code, hc⟩ :=
      Command.exists_expand (ha s (List.mem_of_getElem? hs)).inRange s.place before
    have hg := congrArg (·[k]?) hf
    simp only [List.getElem?_map, getElem?_sitePieces, hs, Option.map_some] at hg
    obtain ⟨f, hk, hi⟩ := Option.map_eq_some_iff.1 hg
    refine ⟨f, code, hk, ?_, ?_⟩
    · rw [hi, code_command hc]
      rfl
    · have hn := Site.numbered_of_expand hc
      simp only [before, Numbering.past, List.countP_map] at hn
      exact hn

/-! ## Units one after the other -/

namespace SourceUnit

/-- The commands on the lines in front of the first one that holds none. -/
def leadingCommands : List SourceLine → List Command
  | [] => []
  | l :: ls =>
    match Command.read l.text with
    | .ok c => c :: leadingCommands ls
    | .error _ => []

/-- The commands of a unit that are expanded: none if its name is not a symbol, and else those
in front of the first bad line. -/
def expanded (u : SourceUnit) : List Command :=
  if isSymbol u.name then leadingCommands (SourceLine.ofText u.source) else []

theorem translateLine_of_read_error {l : SourceLine} {e : CommandError}
    (h : Command.read l.text = .error e) (o : Options) (unit : String) (s : Progress) :
    translateLine o unit s l = .error (.command ⟨unit, l.number⟩ l.text e) := by
  rw [translateLine, h]
  rfl

/-- Whether or not a line fails, the numbering is that behind the commands in front of it. -/
theorem snd_translateLines (o : Options) (unit : String) (s : Progress) (ls : List SourceLine) :
    (translateLines o unit s ls).2 = s.numbering.past (leadingCommands ls) := by
  induction ls generalizing s with
  | nil => rfl
  | cons l ls ih =>
    cases hc : Command.read l.text with
    | error e => rw [translateLines, translateLine_of_read_error hc, leadingCommands, hc]; rfl
    | ok c =>
      obtain ⟨f, hf⟩ := translateLine_of_read hc o unit s
      rw [translateLines, hf, leadingCommands, hc, Numbering.past_cons]
      exact ih ((s.enter c).pass c)

theorem snd_translate (o : Options) (n : Numbering) (u : SourceUnit) :
    (u.translate o n).2 = n.past u.expanded := by
  rw [translate, expanded]
  split
  · exact snd_translateLines o u.name ⟨.unit u.name, n⟩ _
  · rfl

theorem read_of_translateLines {o : Options} {unit : String} {s : Progress} {ls : List SourceLine}
    {fs : List Fragment} (h : (translateLines o unit s ls).1 = .ok fs) :
    ∀ l ∈ ls, ∃ c, Command.read l.text = .ok c := by
  induction ls generalizing s fs with
  | nil => simp
  | cons l ls ih =>
    cases hc : Command.read l.text with
    | error e =>
      rw [translateLines, translateLine_of_read_error hc] at h
      cases h
    | ok c =>
      obtain ⟨f, hf⟩ := translateLine_of_read hc o unit s
      rw [translateLines, hf] at h
      cases hr : (translateLines o unit ((s.enter c).pass c) ls).1 with
      | error e => simp [hr, Except.map] at h
      | ok rest => exact List.forall_mem_cons.2 ⟨⟨c, hc⟩, ih hr⟩

/-- If every line holds a command, every line has its site. -/
theorem sitesFrom_of_read {ls : List SourceLine} (h : ∀ l ∈ ls, ∃ c, Command.read l.text = .ok c)
    (unit : String) (scope : Scope) :
    (sitesFrom unit scope ls).map (·.text) = ls.map (·.text) ∧
      (sitesFrom unit scope ls).map (·.command) = leadingCommands ls := by
  induction ls generalizing scope with
  | nil => exact ⟨rfl, rfl⟩
  | cons l ls ih =>
    obtain ⟨c, hc⟩ := h l (by simp)
    obtain ⟨ht, hd⟩ := ih (fun k hk => h k (by simp [hk])) (scope.after c)
    rw [sitesFrom, hc, leadingCommands, hc, List.map_cons, List.map_cons, List.map_cons, ht, hd]
    exact ⟨rfl, rfl⟩

/-- A unit that is translated has a site on each of its source lines, and all are expanded. -/
theorem sites_of_translate {o : Options} {n : Numbering} {u : SourceUnit} {fs : List Fragment}
    (h : (u.translate o n).1 = .ok fs) :
    u.sites.map (·.text) = (SourceLine.ofText u.source).map (·.text) ∧
      u.sites.map (·.command) = u.expanded := by
  rw [translate] at h
  split at h
  · rename_i hn
    rw [sites, expanded, if_pos hn]
    exact sitesFrom_of_read (read_of_translateLines h) u.name (.unit u.name)
  · cases h

theorem accepted_of_translate {o : Options} {n : Numbering} {u : SourceUnit} {fs : List Fragment}
    (h : (u.translate o n).1 = .ok fs) : ∀ s ∈ u.sites, s.Accepted := by
  have hn := (translate_eq_pieces h).1
  exact fun s hs => accepted_of_mem_sitesFrom hn hn (fun l hl => SourceLine.text_of_mem hl) hs

end SourceUnit

/-- The units translated one after the other, whatever becomes of each of them: its fragments or
its error, and the numbering that it hands on. -/
def translateEach (o : Options) (n : Numbering) :
    List SourceUnit → List (Except TranslateError (List Fragment) × Numbering)
  | [] => []
  | u :: us => u.translate o n :: translateEach o (u.translate o n).2 us

/-- A unit starts with the numbering behind all the units in front of it. -/
theorem getElem?_translateEach (o : Options) (n : Numbering) (units : List SourceUnit) (k : Nat) :
    (translateEach o n units)[k]? =
      units[k]?.map fun u => u.translate o (n.past ((units.take k).flatMap (·.expanded))) := by
  induction units generalizing n k with
  | nil => rfl
  | cons u units ih =>
    cases k with
    | zero => rfl
    | succ k =>
      rw [translateEach, List.getElem?_cons_succ, List.getElem?_cons_succ, ih,
        SourceUnit.snd_translate, List.take_succ_cons, List.flatMap_cons, Numbering.past_append]

/-! ## Programs -/

/-- Numbers depend on positions. In a program the first call is that of the bootstrap, if there
is one, and the fragment of each line has the code that is numbered by the lines in front of it
in all units. If units are translated one after the other, whether or not they fail, a unit
starts with the numbering behind all the commands expanded before, numbers its fragments from
there, and adds the calls and the comparisons that it expands itself. -/
theorem numbers_of_translated (o : Options) (units : List SourceUnit) :
    (∀ p, translate o units = .ok p →
      (∃ fs : List Fragment, p.instructions =
          opening o p.hasBootstrap ++ fs.flatMap (·.instructions) ++ closing o p.hasBootstrap ∧
        NumberedFrom o ⟨if p.hasBootstrap then 1 else 0, 0⟩ (sites units) fs) ∧
      (p.hasBootstrap = true → opening o p.hasBootstrap = SourceUnit.quoted o "bootstrap"
        (put MemoryMap.stackBase Register.sp ++ numberedCall 1 MemoryMap.entryPoint 0))) ∧
    ∀ n k u, units[k]? = some u →
      let start := n.past ((units.take k).flatMap (·.expanded))
      ∃ result, (translateEach o n units)[k]? = some result ∧
        result.2.calls = start.calls + u.expanded.countP (·.isCall) ∧
        result.2.comparisons = start.comparisons + u.expanded.countP (·.isComparison) ∧
        ∀ fs, result.1 = .ok fs →
          u.sites.map (·.text) = (SourceLine.ofText u.source).map (·.text) ∧
          u.sites.map (·.command) = u.expanded ∧ NumberedFrom o start u.sites fs := by
  constructor
  · intro p h
    have ht := translated_of_translate h
    obtain ⟨-, ⟨fs, hf, hp⟩, -⟩ := translate_eq_ok h
    have hi := (translateUnits_eq_pieces hf).2
    have hb : firstNumbering p.hasBootstrap = ⟨if p.hasBootstrap then 1 else 0, 0⟩ := by
      cases p.hasBootstrap <;> rfl
    rw [hb] at hi
    refine ⟨⟨fs, congrArg Program.instructions hp, ?_⟩, ?_⟩
    · exact numberedFrom_of_map_eq hi fun s hs => ht.accepted hs
    · intro hb
      rw [hb]
      show SourceUnit.quoted o "bootstrap" (put _ _ ++ call .start _ 0) = _
      rw [call_eq_numberedCall]
      rfl
  · intro n k u hu start
    have hg := getElem?_translateEach o n units k
    rw [hu, Option.map_some] at hg
    have hn := u.snd_translate o start
    refine ⟨u.translate o start, hg, by rw [hn]; rfl, by rw [hn]; rfl, ?_⟩
    intro fs hf
    obtain ⟨htext, hcommand⟩ := SourceUnit.sites_of_translate hf
    refine ⟨htext, hcommand, ?_⟩
    exact numberedFrom_of_map_eq (SourceUnit.translate_eq_pieces hf).2.1
      (SourceUnit.accepted_of_translate hf)

/-- Two units that call each other. -/
def mutualUnits : List SourceUnit :=
  [⟨"A", "function A.f 0\ncall B.g 0\neq"⟩, ⟨"B", "function B.g 0\nlt\ncall A.f 0"⟩]

/-- A unit that fails between its first call and its comparison. -/
def failingUnit : SourceUnit := ⟨"A", "call A.f 0\npush heap 1\neq\ncall A.f 0"⟩

/-- The call in the second unit is the third of the program, and the comparison in front of it the
second. A unit behind the failing one takes the second call. -/
theorem numbers_of_mutualUnits :
    (∃ (p : Program) (fs : List Fragment) (f g : Fragment),
      translate ⟨false, .auto⟩ mutualUnits = .ok p ∧
      p.instructions = opening ⟨false, .auto⟩ true ++ fs.flatMap (·.instructions) ++
        closing ⟨false, .auto⟩ true ∧
      fs[4]? = some f ∧ f.instructions = numberedComparison 2 .lt ∧
      fs[5]? = some g ∧ g.instructions = numberedCall 3 "A.f" 0) ∧
    ∃ result, (translateEach ⟨false, .auto⟩ .start (failingUnit :: mutualUnits))[1]? = some result ∧
      result.2 = ⟨2, 1⟩ := by
  constructor
  · obtain ⟨p, hp⟩ : ∃ p, translate ⟨false, .auto⟩ mutualUnits = .ok p := ⟨_, rfl⟩
    have hb : p.hasBootstrap = true := (translated_of_translate hp).hasBootstrap
    obtain ⟨⟨fs, hi, -, hn⟩, -⟩ := (numbers_of_translated _ _).1 p hp
    rw [hb] at hi hn
    have hlt : (sites mutualUnits)[4]? = some ⟨⟨"B", ⟨"B.g"⟩⟩, "lt", .arithmetic .lt⟩ := by decide
    have hcall : (sites mutualUnits)[5]? = some ⟨⟨"B", ⟨"B.g"⟩⟩, "call A.f 0", .call "A.f" 0⟩ := by
      decide
    obtain ⟨f, code, hf, hc, hm⟩ := hn 4 _ hlt
    obtain ⟨g, more, hg, hd, hk⟩ := hn 5 _ hcall
    exact ⟨p, fs, f, g, hp, hi, hf, hc.trans (hm.comparison .lt .lt rfl rfl), hg,
      hd.trans (hk.call "A.f" 0 rfl)⟩
  · obtain ⟨result, hr, hc, hm, -⟩ := (numbers_of_translated ⟨false, .auto⟩
      (failingUnit :: mutualUnits)).2 .start 1 _ rfl
    exact ⟨result, hr, congrArg₂ Numbering.mk hc hm⟩

end HackVM
