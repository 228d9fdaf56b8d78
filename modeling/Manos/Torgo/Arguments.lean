import Manos.Torgo.EnvLaws
import Manos.Torgo.Expansion
import Manos.Torgo.Parser

/-!
# The arguments of a command

`populateCmdArgsShell`, which builds the vector of arguments from the words of a command.  The
memory of an argument is a list of bytes; to read or write outside of it is a fault.  Requests
for memory other than those of the environment are taken to succeed.
-/

namespace Torgo

open Exec Env

/-! ### The functions -/

/-- `getLengthParseResult` -/
def getLengthParseResult : ParseResult → ℕ
  | .parsedCommand length _ => length
  | .parseIncomplete => 0

/-- The tokens that the iterator of `getParseTokenIteratorParseResult` gives -/
def getParseTokenIteratorParseResult : ParseResult → List (List Byte)
  | .parsedCommand _ tokens => tokens
  | .parseIncomplete => []

/-- `assignString` -/
def assignString (mem : List Byte) : DString := ⟨cstr mem, zero_notMem_cstr mem⟩

/-- `*tokenStr` -/
def charAt : List Byte → Exec Env Byte
  | [] => fault (.wild "tokenStr")
  | c :: _ => pure c

/-- The inner loop of `populateCmdArgsShell`, which moves `tokenStr` behind a name -/
def takeName : List Byte → CharBuf → Exec Env (List Byte × CharBuf)
  | [], _ => fault (.wild "tokenStr")
  | c :: str, varBuilder =>
      if isNameChar c = true then takeName str (appendCharBuf varBuilder c)
      else return (c :: str, varBuilder)

/-- The loop of `populateCmdArgsShell` over the characters of a token, with at most so many
turns -/
def expandToken : ℕ → List Byte → CharBuf → CharBuf → Exec Env (CharBuf × CharBuf)
  | 0, _, _, _ => fault .endless
  | _ + 1, [], _, _ => fault (.wild "tokenStr")
  | k + 1, c :: str, tokenBuilder, varBuilder =>
      if c = 0 then return (tokenBuilder, varBuilder)
      else if c = dollar then do
        let d ← charAt str
        if isNameStart d = true then
          let (str, varBuilder) ← takeName str (clearCharBuf varBuilder)
          let value ← lookupVarEnv k (assignString (fromCharBuf varBuilder))
          match value with
          | none => expandToken k str tokenBuilder varBuilder
          | some a => do
              let v ← string a
              expandToken k str (concatCharBuf tokenBuilder v.str) varBuilder
        else expandToken k str tokenBuilder (clearCharBuf varBuilder)
      else expandToken k str (appendCharBuf tokenBuilder c) varBuilder

/-- The copy of an argument, in memory that was cleared. -/
def copyArg (tokenBuilder : CharBuf) : List Byte := cstr (fromCharBuf tokenBuilder) ++ [0]

/-- The loop of `populateCmdArgsShell` over the tokens: the number of turns left, `i`, the tokens,
the builders and `argv_` -/
def populateArgs (k : ℕ) : ℕ → ℕ → List (List Byte) → CharBuf → CharBuf →
    List (Option (List Byte)) → Exec Env (List (Option (List Byte)))
  | 0, _, _, _, _, argv => return argv
  | _ + 1, _, [], _, _, _ => fault (.null "token")
  | n + 1, i, token :: tokens, tokenBuilder, varBuilder, argv => do
      let (tokenBuilder, varBuilder) ←
        expandToken k (token ++ [0]) (clearCharBuf tokenBuilder) varBuilder
      if i < argv.length then
        populateArgs k n (i + 1) tokens tokenBuilder varBuilder
          (argv.set i (some (copyArg tokenBuilder)))
      else fault (.wild "argv")

/-- Look for `'&'` at the end of the last argument, and remove it. -/
def checkBackground (lastArg : List Byte) : Exec Env (Bool × List Byte) :=
  let strlen := (cstr lastArg).length
  if strlen = 0 then fault (.wild "lastArg")
  else if lastArg[strlen - 1]? = some ampersand then
    return (true, lastArg.set (strlen - 1) 0)
  else return (false, lastArg)

/-- `populateCmdArgsShell`, which returns a flag, `argc` and `argv`.  The vector is in memory that
was cleared. -/
def populateCmdArgsShell (k : ℕ) (result : ParseResult) :
    Exec Env (Bool × ℕ × List (Option (List Byte))) := do
  let argc := getLengthParseResult result
  let argv ← populateArgs k argc 0 (getParseTokenIteratorParseResult result) (mkCharBuf 32)
    (mkCharBuf 32) (.replicate (1 + argc) none)
  if argc ≠ 0 then
    match argv[argc - 1]? with
    | some (some lastArg) => do
        let (bg, lastArg) ← checkBackground lastArg
        return (bg, argc, argv.set (argc - 1) (some lastArg))
    | _ => fault (.null "lastArg")
  else return (false, argc, argv)

/-! ### Words -/

/-- The value of a variable, or nothing. -/
def valueOf (s : Env) (l : List ℕ) (name : List Byte) : List Byte :=
  ((s.found l (assignString name)).map fun a => (s.binding a).2.bytes).getD []

section

variable {s : Env} {l : List ℕ} {k : ℕ} {str : List Byte} {tokenBuilder varBuilder : CharBuf}

/-- The name is in the builder then, and the pointer behind it. -/
theorem takeName_returns (hstr : 0 ∉ str) :
  Returns s (takeName (str ++ [0]) varBuilder) fun r s' => s' = s
    ∧ r.1 = str.dropWhile isNameChar ++ [0]
    ∧ r.2.text = varBuilder.text ++ str.takeWhile isNameChar
  := by
  induction str generalizing varBuilder with
  | nil =>
      rw [List.nil_append, takeName, if_neg (Bool.eq_false_iff.mp isNameChar_zero)]
      apply Returns.pure
      exact ⟨rfl, rfl, (List.append_nil _).symm⟩
  | cons c str ih =>
      rw [List.mem_cons, not_or] at hstr
      rw [List.cons_append, takeName]
      by_cases hc : isNameChar c = true
      · rw [if_pos hc, List.dropWhile_cons_of_pos hc, List.takeWhile_cons_of_pos hc]
        apply (ih hstr.2).mono
        rintro r s' ⟨rfl, hrest, htext⟩
        refine ⟨rfl, hrest, ?_⟩
        rw [htext, CharBuf.text_append (Ne.symm hstr.1), List.append_assoc, List.singleton_append]
      · rw [if_neg hc, List.dropWhile_cons_of_neg hc, List.takeWhile_cons_of_neg hc]
        apply Returns.pure
        exact ⟨rfl, rfl, (List.append_nil _).symm⟩

theorem assignString_text {buf : CharBuf} :
  assignString (fromCharBuf buf) = assignString buf.text
  := by
  apply DString.ext_bytes
  show cstr (fromCharBuf buf) = cstr buf.text
  have htext : cstr buf.text = buf.text := cstr_of_notMem buf.nonzero
  rw [htext]
  exact CharBuf.mkString_text

/-- A token is expanded, behind what is in the builder. -/
theorem expandToken_returns (h : s.Holds l) (hstr : 0 ∉ str) (hk : str.length + l.length < k) :
  Returns s (expandToken k (str ++ [0]) tokenBuilder varBuilder) fun r s' => s' = s
    ∧ r.1.text = tokenBuilder.text ++ expandVars (valueOf s l) str
  := by
  induction k generalizing str tokenBuilder varBuilder with
  | zero => contradiction
  | succ k ih =>
      cases str with
      | nil =>
          rw [List.nil_append, expandToken, if_pos rfl]
          apply Returns.pure
          exact ⟨rfl, by rw [expandVars_nil, List.append_nil]⟩
      | cons c str =>
          rw [List.mem_cons, not_or] at hstr
          rw [List.length_cons] at hk
          rw [List.cons_append, expandToken, if_neg (Ne.symm hstr.1)]
          by_cases hc : c = dollar
          · subst hc
            rw [if_pos rfl]
            have hchar : charAt (str ++ [0]) s = .done ((str ++ [0]).headD 0) s := by
              cases str with
              | nil => rfl
              | cons d str => rfl
            have hstart : isNameStart ((str ++ [0]).headD 0) = startsName str := by
              cases str with
              | nil => rfl
              | cons d str => rfl
            apply Returns.step hchar
            rw [hstart]
            by_cases hname : startsName str = true
            · rw [if_pos hname, expandVars_reference hname]
              have hrest : 0 ∉ str.dropWhile isNameChar :=
                fun hmem => hstr.2 (List.dropWhile_subset _ hmem)
              have hle := List.length_dropWhile_le isNameChar str
              apply Returns.bind (takeName_returns hstr.2)
              rintro ⟨_, varBuilder'⟩ s' ⟨hs, rfl, hbuilder⟩
              obtain rfl := hs.symm
              rw [CharBuf.text_clear, List.nil_append] at hbuilder
              have hvar : assignString (fromCharBuf varBuilder')
                  = assignString (str.takeWhile isNameChar) := by
                rw [assignString_text, hbuilder]
              apply Returns.step (lookupVarEnv_apply h (by omega))
              rw [hvar, valueOf]
              cases hfound : s.found l (assignString (str.takeWhile isNameChar)) with
              | none =>
                  apply (ih hrest (by omega)).mono
                  rintro r s' ⟨hs, htext⟩
                  exact ⟨hs, htext⟩
              | some a =>
                  have ha : a ∈ l := List.mem_of_find?_eq_some hfound
                  have hstring : string (s.var a).value s = .done (s.binding a).2 s :=
                    congrFun (if_neg (h.live.value_live ha)) s
                  apply Returns.step hstring
                  apply (ih hrest (by omega)).mono
                  rintro r s' ⟨hs, htext⟩
                  refine ⟨hs, ?_⟩
                  rw [htext, CharBuf.text_concat, DString.str,
                    cstr_append_zero (s.binding a).2.nonzero, List.append_assoc]
                  rfl
            · rw [if_neg hname, expandVars_dollar hname]
              apply ih hstr.2
              omega
          · rw [if_neg hc, expandVars_literal hc]
            apply (ih hstr.2 (by omega)).mono
            rintro r s' ⟨rfl, htext⟩
            refine ⟨rfl, ?_⟩
            rw [htext, CharBuf.text_append (Ne.symm hstr.1), List.append_assoc,
              List.singleton_append]

/-! ### Commands -/

/-- The argument that a token expands to. -/
def argument (s : Env) (l : List ℕ) (t : DString) : List Byte := expandVars (valueOf s l) t.bytes

theorem copyArg_eq (buf : CharBuf) :
  copyArg buf = buf.text ++ [0]
  := congrArg (· ++ [0]) CharBuf.mkString_text

/-- No argument has a zero in it: it was the text of a buffer. -/
theorem zero_notMem_argument (h : s.Holds l) (t : DString) :
  0 ∉ argument s l t
  := by
  have hreturns : Returns s (expandToken (t.bytes.length + l.length + 1) (t.bytes ++ [0])
      (mkCharBuf 32) (mkCharBuf 32)) _ :=
    expandToken_returns h t.nonzero (Nat.lt_succ_self _)
  obtain ⟨r, _, -, -, htext⟩ := hreturns
  rw [CharBuf.text_mkCharBuf, List.nil_append] at htext
  rw [argument, ← htext]
  exact r.1.nonzero

/-- The arguments are put into the vector one after another. -/
theorem populateArgs_returns (h : s.Holds l) (done : List (List Byte)) {tokens : List DString}
    (tokenBuilder varBuilder : CharBuf) (hk : ∀ t ∈ tokens, t.bytes.length + l.length < k) :
  Returns s (populateArgs k tokens.length done.length (tokens.map DString.bytes) tokenBuilder
      varBuilder (done.map some ++ .replicate (tokens.length + 1) none)) fun argv s' =>
    s' = s ∧ argv = (done ++ tokens.map fun t => argument s l t ++ [0]).map some ++ [none]
  := by
  induction tokens generalizing done tokenBuilder varBuilder with
  | nil =>
      apply Returns.pure
      refine ⟨rfl, ?_⟩
      rw [List.map_nil, List.append_nil]
      rfl
  | cons t tokens ih =>
      rw [List.length_cons, List.map_cons, populateArgs]
      apply Returns.bind (expandToken_returns h t.nonzero (hk t List.mem_cons_self))
      rintro ⟨tokenBuilder', varBuilder'⟩ s' ⟨hs, htext⟩
      obtain rfl := hs.symm
      rw [CharBuf.text_clear, List.nil_append] at htext
      have hlt : done.length
          < (done.map some ++ List.replicate (tokens.length + 1 + 1) (none (α := List Byte))).length
          := by
        rw [List.length_append, List.length_map, List.length_replicate]
        omega
      have hset : (done.map some ++ List.replicate (tokens.length + 1 + 1) none).set done.length
            (some (copyArg tokenBuilder'))
          = (done ++ [argument s l t ++ [0]]).map some
            ++ List.replicate (tokens.length + 1) none := by
        rw [copyArg_eq, htext, List.replicate_succ, List.set_append_right _ _ (by simp)]
        simp [argument]
      dsimp only
      rw [if_pos hlt, hset]
      have hnext := ih (done ++ [argument s l t ++ [0]]) tokenBuilder' varBuilder'
        fun t ht => hk t (List.mem_cons_of_mem _ ht)
      rw [List.length_append, List.length_singleton] at hnext
      apply hnext.mono
      rintro argv s' ⟨hs, hargv⟩
      refine ⟨hs, ?_⟩
      rw [hargv, List.append_assoc, List.singleton_append, List.map_cons (l := tokens)]

/-- The vector, the number of arguments and the flag are those of the tokens with the values of
variables in them; every argument ends in its memory, and there is no access outside of it. -/
def Populates (s : Env) (l : List ℕ) (tokens : List DString) : Prop :=
  ∃ k₀, ∀ k ≥ k₀, Returns s
    (populateCmdArgsShell k (.parsedCommand tokens.length (tokens.map DString.bytes)))
    fun r s' => s' = s ∧ r.2.1 = tokens.length
      ∧ r.1 = (background (tokens.map (argument s l))).1
      ∧ ∃ blocks : List (List Byte), r.2.2 = blocks.map some ++ [none]
        ∧ blocks.map cstr = (background (tokens.map (argument s l))).2 ∧ ∀ b ∈ blocks, 0 ∈ b

/-- Without a last character to look at, the byte before the argument is read. -/
theorem checkBackground_nil :
  checkBackground [0] s = .stop (.wild "lastArg") s
  := rfl

/-- A last argument is looked at from its end. -/
theorem checkBackground_append {arg : List Byte} {c : Byte} (hnonzero : 0 ∉ arg ++ [c]) :
  checkBackground (arg ++ [c] ++ [0]) s
    = .done (if c = ampersand then (true, arg ++ [0] ++ [0]) else (false, arg ++ [c] ++ [0])) s
  := by
  have hcstr : cstr (arg ++ [c] ++ [0]) = arg ++ [c] := cstr_append_zero hnonzero
  have hlen : (arg ++ [c]).length = arg.length + 1 := by
    rw [List.length_append, List.length_singleton]
  have hlast : (arg ++ [c] ++ [0])[arg.length]? = some c := by simp
  have hset : (arg ++ [c] ++ [0]).set arg.length 0 = arg ++ [0] ++ [0] := by
    simp
  simp only [checkBackground, hcstr, hlen, Nat.add_sub_cancel, hlast, hset, Option.some.injEq]
  rw [if_neg (Nat.succ_ne_zero _)]
  by_cases hc : c = ampersand
  · rw [if_pos hc, if_pos hc, pure_apply]
  · rw [if_neg hc, if_neg hc, pure_apply]

/-- The blocks of the arguments before the flag is looked for. -/
def argBlocks (s : Env) (l : List ℕ) (tokens : List DString) : List (List Byte) :=
  tokens.map fun t => argument s l t ++ [0]

/-- The part of `populateCmdArgsShell` behind its loop. -/
theorem populateCmdArgsShell_done {r : ParseResult} {argv : List (Option (List Byte))}
    {lastArg : List Byte}
    (hrun : populateArgs k (getLengthParseResult r) 0 (getParseTokenIteratorParseResult r)
      (mkCharBuf 32) (mkCharBuf 32) (.replicate (1 + getLengthParseResult r) none) s
        = .done argv s)
    (hne : getLengthParseResult r ≠ 0)
    (hget : argv[getLengthParseResult r - 1]? = some (some lastArg)) :
  populateCmdArgsShell k r s = (checkBackground lastArg >>= fun x =>
    pure (x.1, getLengthParseResult r, argv.set (getLengthParseResult r - 1) (some x.2))) s
  := by
  rw [populateCmdArgsShell, bind_done hrun, if_pos hne, hget]

/-- A command of which there is a last argument. -/
theorem populateCmdArgsShell_snoc (h : s.Holds l) {tokens : List DString} {t : DString}
    (hk : ∀ u ∈ tokens ++ [t], u.bytes.length + l.length < k) :
  populateCmdArgsShell k (.parsedCommand (tokens ++ [t]).length
      ((tokens ++ [t]).map DString.bytes)) s
    = (checkBackground (argument s l t ++ [0]) >>= fun r => pure (r.1, (tokens ++ [t]).length,
        (argBlocks s l tokens).map some ++ [some r.2] ++ [none])) s
  := by
  obtain ⟨argv, s', hrun, hs, hargv⟩ :=
    populateArgs_returns h [] (mkCharBuf 32) (mkCharBuf 32) hk
  obtain rfl := hs.symm
  rw [List.length_nil, List.map_nil, List.nil_append] at hrun
  have hlen : (tokens ++ [t]).length = tokens.length + 1 := by
    rw [List.length_append, List.length_singleton]
  have hblocks : argv
      = (argBlocks s l tokens).map some ++ [some (argument s l t ++ [0])] ++ [none] := by
    rw [hargv, List.nil_append, List.map_append, List.map_append]
    rfl
  have hcount : ((argBlocks s l tokens).map some).length = tokens.length := by
    rw [List.length_map, argBlocks, List.length_map]
  have hget : argv[tokens.length]? = some (some (argument s l t ++ [0])) := by
    rw [hblocks, ← hcount]
    simp
  have hset : ∀ b : List Byte, argv.set tokens.length (some b)
      = (argBlocks s l tokens).map some ++ [some b] ++ [none] := by
    intro b
    rw [hblocks, ← hcount]
    simp
  have hne : (tokens ++ [t]).length ≠ 0 := by omega
  have hlast : argv[(tokens ++ [t]).length - 1]? = some (some (argument s l t ++ [0])) := by
    rw [hlen, Nat.add_sub_cancel, hget]
  rw [Nat.add_comm _ 1] at hrun
  have hdone := populateCmdArgsShell_done
    (r := .parsedCommand (tokens ++ [t]).length ((tokens ++ [t]).map DString.bytes)) hrun hne hlast
  rw [hdone]
  refine congrFun (congrArg _ ?_) s
  funext x
  rw [getLengthParseResult, hlen, Nat.add_sub_cancel, hset]

theorem background_append (args : List (List Byte)) (arg : List Byte) :
  background (args ++ [arg]) = if arg.getLast? = some ampersand then (true, args ++ [arg.dropLast])
    else (false, args ++ [arg])
  := by
  rw [background, List.getLast?_concat]
  dsimp only
  rw [List.dropLast_concat]

/-- The flag and the last argument are the ones of the shell if that argument has a character. -/
theorem checkBackground_returns {arg : List Byte} (hne : arg ≠ []) (hnonzero : 0 ∉ arg)
    (args : List (List Byte)) :
  ∃ flag block, checkBackground (arg ++ [0]) s = .done (flag, block) s
    ∧ background (args ++ [arg]) = (flag, args ++ [cstr block]) ∧ 0 ∈ block
  := by
  obtain ⟨arg, c, rfl⟩ : ∃ init c, arg = init ++ [c] :=
    ⟨arg.dropLast, arg.getLast hne, (List.dropLast_concat_getLast hne).symm⟩
  rw [checkBackground_append hnonzero, background_append, List.getLast?_concat,
    List.dropLast_concat]
  simp only [Option.some.injEq]
  by_cases hc : c = ampersand
  · -- the sign is overwritten by a second end of the string
    have hcstr : cstr (arg ++ [0] ++ [0]) = arg := by
      rw [List.append_assoc]
      exact cstr_append_zero fun h₀ => hnonzero (List.mem_append_left _ h₀)
    rw [if_pos hc, if_pos hc]
    exact ⟨true, arg ++ [0] ++ [0], rfl, by rw [hcstr], by simp⟩
  · have hcstr : cstr (arg ++ [c] ++ [0]) = arg ++ [c] := cstr_append_zero hnonzero
    rw [if_neg hc, if_neg hc]
    exact ⟨false, arg ++ [c] ++ [0], rfl, by rw [hcstr], by simp⟩

theorem map_cstr_argBlocks (h : s.Holds l) (tokens : List DString) :
  (argBlocks s l tokens).map cstr = tokens.map (argument s l)
  := by
  rw [argBlocks, List.map_map]
  apply List.map_congr_left
  intro t _
  exact cstr_append_zero (zero_notMem_argument h t)

theorem zero_mem_argBlocks {tokens : List DString} {b : List Byte} (hb : b ∈ argBlocks s l tokens) :
  0 ∈ b
  := by
  obtain ⟨t, -, rfl⟩ := List.mem_map.mp hb
  exact List.mem_append_right _ (List.mem_singleton.mpr rfl)

/-- A bound on the turns of the loops. -/
theorem exists_bound (tokens : List DString) (l : List ℕ) :
  ∃ k₀, ∀ t ∈ tokens, t.bytes.length + l.length < k₀
  := by
  induction tokens with
  | nil => exact ⟨0, by simp⟩
  | cons t tokens ih =>
      obtain ⟨k₀, hk₀⟩ := ih
      refine ⟨k₀ + (t.bytes.length + l.length + 1), ?_⟩
      intro u hu
      rcases List.mem_cons.mp hu with rfl | hu
      · omega
      · have := hk₀ u hu
        omega

/-- The vector of arguments is what it should be exactly if the last token does not vanish. -/
theorem populates_iff (h : s.Holds l) (tokens : List DString) :
  Populates s l tokens ↔ ∀ t ∈ tokens.getLast?, ¬ Vanishes (valueOf s l) t.bytes
  := by
  obtain ⟨k₀, hk₀⟩ := exists_bound tokens l
  rcases List.eq_nil_or_concat tokens with rfl | ⟨init, t, htokens⟩
  · constructor
    · intro _ t ht
      cases ht
    · intro _
      refine ⟨0, ?_⟩
      intro k _
      exact ⟨_, s, rfl, rfl, rfl, rfl, [], rfl, rfl, by simp⟩
  · rw [List.concat_eq_append] at htokens
    subst htokens
    rw [List.getLast?_concat]
    simp only [Option.mem_def, Option.some.injEq, forall_eq']
    rw [← expandVars_eq_nil_iff]
    show _ ↔ argument s l t ≠ []
    constructor
    · rintro ⟨k₁, hpopulate⟩ hnil
      obtain ⟨r, s', hrun, -⟩ := hpopulate (k₀ + k₁) (Nat.le_add_left k₁ k₀)
      rw [populateCmdArgsShell_snoc h fun u hu => Nat.lt_add_right k₁ (hk₀ u hu), hnil,
        List.nil_append, bind_stop checkBackground_nil] at hrun
      cases hrun
    · intro hne
      refine ⟨k₀, ?_⟩
      intro k hk
      obtain ⟨flag, block, hcheck, hbackground, hzero⟩ :=
        checkBackground_returns (s := s) hne (zero_notMem_argument h t)
          (init.map (argument s l))
      have hsnoc := populateCmdArgsShell_snoc h fun u hu => Nat.lt_of_lt_of_le (hk₀ u hu) hk
      rw [bind_done hcheck, pure_apply] at hsnoc
      have hargs : (init ++ [t]).map (argument s l)
          = init.map (argument s l) ++ [argument s l t] := by
        rw [List.map_append, List.map_singleton]
      rw [← hargs] at hbackground
      refine ⟨_, s, hsnoc, rfl, rfl, ?_, argBlocks s l init ++ [block], ?_, ?_, ?_⟩
      · rw [hbackground]
      · rw [List.map_append, List.map_singleton]
      · rw [hbackground, List.map_append, map_cstr_argBlocks h, List.map_singleton]
      · intro b hb
        rcases List.mem_append.mp hb with hb | hb
        · exact zero_mem_argBlocks hb
        · rw [List.mem_singleton.mp hb]
          exact hzero

/-- The last argument of `ls $bb` is the value of `bb`. -/
theorem populates_iff_two :
  Populates Env.two [3, 0] [⟨[108, 115], by decide⟩, ⟨[36, 98, 98], by decide⟩]
  := by
  apply (populates_iff two_holds _).mpr
  intro t ht
  have hbytes : t.bytes = [36, 98, 98] := congrArg DString.bytes (Option.some.inj ht).symm
  have hvalue : valueOf Env.two [3, 0] [98, 98] = [50] := by
    decide
  have hname : [(98 : Byte), 98].takeWhile isNameChar = [98, 98] := by
    decide
  rw [hbytes, ← expandVars_eq_nil_iff, show (36 : Byte) = dollar from rfl,
    expandVars_reference (by decide), hname, hvalue]
  exact List.cons_ne_nil _ _

/-- The last argument of `ls $X` is empty if there is no variable `X`. -/
theorem not_populates :
  ¬ Populates Env.empty [] [⟨[108, 115], by decide⟩, ⟨[36, 88], by decide⟩]
  := by
  rintro ⟨k₀, hpopulate⟩
  obtain ⟨r, s', hrun, -⟩ := hpopulate (k₀ + 3) (Nat.le_add_right k₀ 3)
  cases hrun

end

end Torgo
