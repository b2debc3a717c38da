import LocalAi.Tools.Deltas

/-!
# Parameters whose text and value disagree

A parameter streams as raw text when its schema is a string type with nothing but
annotations, and converts as JSON first when its schema accepts every type.  A
type list of every JSON type is both: then `1` streams as the string `"1` and
ends as the number `1`.

* `Tool.Compiled.textSound`: without such a parameter, streamed text is a string.
* `ambiguous_call`: with one, a call whose deltas do not spell its arguments.
* `deltas_spell_arguments_iff`: so such a parameter is all that can go wrong.
-/

open List

namespace LocalAi.Tools

open LocalAi.Lib LocalAi.Answer

/-- It streams as text and converts as JSON. -/
def Parameter.ambiguous (parameter : Parameter) : Bool :=
  parameter.anyString && parameter.unconstrained

/-- No parameter of a non-strict tool is ambiguous. -/
def Tool.Unambiguous (tool : Tool) : Prop :=
  tool.strict = none → ∀ schema, tool.schema = some schema →
    ∀ key parameter, schema.parameter key = some parameter → parameter.ambiguous = false

variable {L : Type} {env : Env} {tools : ToolSet} {tool : Tool}

variable {key : Text} {schema : ArgumentSchema} {parameter : Parameter}

theorem ArgumentSchema.parameter_eq_some (h : schema.parameter key = some parameter) :
    (key, parameter) ∈ schema.properties ∨ schema.additional = some parameter := by
  rcases Option.or_eq_some_iff.mp h with hf | ⟨_, ha⟩
  · left
    obtain ⟨⟨key', parameter'⟩, he, heq⟩ := Option.map_eq_some_iff.mp hf
    have hk : key' = key := by simpa using find?_some he
    cases heq
    rw [← hk]
    exact mem_of_find?_eq_some he
  · exact .inr ha

theorem Tool.Compiled.stringSound (h : tool.Compiled) (hs : tool.schema = some schema)
    (hp : schema.parameter key = some parameter) : parameter.StringSound := by
  rcases ArgumentSchema.parameter_eq_some hp with hm | ha
  · exact (h.properties schema hs _ hm).2
  · exact h.additional schema hs _ ha

theorem Tool.Compiled.textSound (h : tool.Compiled) (hp : tool.Unambiguous) :
    TextSound env tool := by
  intro key raw hm
  cases hs : tool.strict with
  | some layout =>
    cases layout with
    | error => simp [streamsText, hs] at hm
    | ok =>
      simp only [streamsText, hs] at hm
      obtain ⟨declared, hd, hv⟩ := Option.map_eq_some_iff.mp hm
      simp only [finishedValue, hs, hd, Option.bind_some]
      cases hk : declared.value with
      | raw => rfl
      | json => simp [hk] at hv
  | none =>
    simp only [streamsText, hs, Option.some.injEq] at hm
    simp only [finishedValue, hs]
    cases hf : tool.schema.bind fun schema => schema.parameter key with
    | none => simp [hf] at hm
    | some parameter =>
      obtain ⟨schema, hsch, hpar⟩ := Option.bind_eq_some_iff.mp hf
      have ha : parameter.anyString = true := by simpa [hf] using hm
      have hc : parameter.unconstrained = false := by
        have := hp hs schema hsch key parameter hpar
        simpa [Parameter.ambiguous, ha] using this
      have hstr := h.stringSound hsch hpar ha raw
      simp [convert, hc, hstr]

/-! ### A call that disagrees -/

theorem exists_fresh_name (names : List Text) : ∃ key, validParameterName key = true ∧ key ∉ names := by
  refine ⟨replicate (names.flatten.length + 1) 'a', ?_, fun hm => ?_⟩
  · simp only [validParameterName, Bool.and_eq_true, Bool.not_eq_true']
    refine ⟨by simp [replicate_succ], ?_⟩
    rw [any_eq_false]
    intro c hc
    rw [eq_of_mem_replicate hc]
    decide
  · have hle := (sublist_flatten_of_mem hm).length_le
    rw [length_replicate] at hle
    omega

theorem exists_ambiguous_name (h : tool.Compiled) (hs : tool.schema = some schema)
    (hp : schema.parameter key = some parameter) :
    ∃ key, validParameterName key = true ∧ schema.parameter key = some parameter := by
  rcases ArgumentSchema.parameter_eq_some hp with hm | ha
  · exact ⟨key, (h.properties schema hs _ hm).1, hp⟩
  · obtain ⟨fresh, hv, hnew⟩ := exists_fresh_name (schema.properties.map Prod.fst)
    refine ⟨fresh, hv, ?_⟩
    have hn : (schema.properties.find? fun entry => entry.1 == fresh) = none := by
      rw [find?_eq_none]
      intro entry hent heq
      exact hnew (beq_iff_eq.mp heq ▸ mem_map_of_mem hent)
    rw [ArgumentSchema.parameter, hn, Option.map_none, Option.none_or, ha]

def openCall (name key : Text) : Text :=
  functionOpen ++ name ++ ['>'] ++ (parameterOpen ++ (key ++ ">\n".toList))

/-- The rest of its parameters, for the argument `1`. -/
def closeParameters : Text := "\n</parameter>\n</function>\n".toList

theorem splitOnce_openCall {name : Text} (hn : validToolName name = true)
    (hk : validParameterName key = true) (more : Text) :
    splitOnce callEndTag (openCall name key ++ more)
      = (splitOnce callEndTag more).map fun parts => (openCall name key ++ parts.1, parts.2) := by
  have hfn : ¬ callEndTag <:+: "<function=".toList ++ name ++ ['>'] := by
    intro hi
    have hs : '/' ∈ "<function=".toList ++ name ++ ['>'] := hi.subset (by decide)
    simp only [mem_append, or_assoc] at hs
    rcases hs with hin | hin | hin
    · revert hin; decide
    · exact notMem_of_validToolName hn (by decide) hin
    · revert hin; decide
  have hp : ¬ callEndTag <:+: "<parameter=".toList ++ key ++ ['>'] := by
    intro hi
    have hc : "<parameter=".toList ++ key ++ ['>'] = '<' :: ("parameter=".toList ++ key ++ ['>']) :=
      rfl
    rw [hc, infix_cons_iff] at hi
    rcases hi with hpre | hin
    · obtain ⟨back, hb⟩ := hpre
      cases hb
    · have ho : '<' ∈ "parameter=".toList ++ key ++ ['>'] := hin.subset (by decide)
      simp only [mem_append, or_assoc] at ho
      rcases ho with hin | hin | hin
      · revert hin; decide
      · exact notMem_of_validParameterName hk (.inl rfl) hin
      · revert hin; decide
  have ht : ∀ rest : Text, openCall name key ++ rest = [] ++ '\n' ::
      ("<function=".toList ++ name ++ ['>'] ++ '\n' ::
        ("<parameter=".toList ++ key ++ ['>'] ++ '\n' :: rest)) := by
    intro rest
    have ho : functionOpen = '\n' :: "<function=".toList := rfl
    have hp : parameterOpen = '\n' :: "<parameter=".toList := rfl
    have he : ">\n".toList = ['>', '\n'] := rfl
    rw [openCall, ho, hp, he]
    simp only [append_assoc, cons_append, nil_append]
  have hg : '\n' ∉ callEndTag := by decide
  rw [ht, splitOnce_guard (by decide) hg (by decide), splitOnce_guard (by decide) hg hfn,
    splitOnce_guard (by decide) hg hp, Option.map_map, Option.map_map]
  congr 1
  funext parts
  exact Prod.ext (ht parts.1).symm rfl

theorem strictHeader_openCall (hc : tools.Compiled) (hm : tool ∈ tools.tools)
    (hs : tool.strict = none) (key more : Text) :
    strictHeader tools (openCall tool.definition.name key ++ more) = none := by
  have hn := (hc.compiled tool hm).name
  have ho : stripPrefix functionOpen (openCall tool.definition.name key ++ more)
      = some (tool.definition.name ++ (['>'] ++ (parameterOpen ++ (key ++ ">\n".toList) ++ more))) := by
    rw [stripPrefix_eq_some, openCall]
    simp only [append_assoc]
  have hsp : splitOnce ['>']
      (tool.definition.name ++ (['>'] ++ (parameterOpen ++ (key ++ ">\n".toList) ++ more)))
        = some (tool.definition.name, parameterOpen ++ (key ++ ">\n".toList) ++ more) :=
    splitOnce_of_notMem (notMem_of_validToolName hn (by decide)) _
  unfold strictHeader
  split
  · rw [ho, Option.bind_some, hsp, Option.bind_some]
    dsimp only
    rw [hc.get_of_mem hm]
    simp [Option.filter, hs]
  · rfl

theorem callEnd_openCall (hc : tools.Compiled) (hm : tool ∈ tools.tools)
    (hs : tool.strict = none) (hk : validParameterName key = true) (more : Text) :
    callEnd (openCall tool.definition.name key ++ more) tools
      = (splitOnce callEndTag more).map fun parts =>
          (openCall tool.definition.name key ++ parts.1, parts.2, callEndTag, none) := by
  have hn := (hc.compiled tool hm).name
  rw [callEnd_eq, strictHeader_openCall hc hm hs, splitOnce_openCall hn hk]
  rw [Option.map_map]
  rfl

theorem functionHeader_openCall {name : Text} (hn : validToolName name = true) (key more : Text) :
    functionHeader (openCall name key ++ more)
      = some (name, parameterOpen ++ (key ++ (">\n".toList ++ more))) := by
  have ht : openCall name key ++ more
      = functionOpen ++ name ++ ['>'] ++ (parameterOpen ++ (key ++ (">\n".toList ++ more))) := by
    simp only [openCall, append_assoc]
  rw [ht]
  exact functionHeader_strict hn _

/-- What goes out of `1` while the argument is open: the start of a string. -/
theorem pieces_openCall (hcompiled : tools.Compiled) (hmem : tool ∈ tools.tools)
    (hk : validParameterName key = true) (hm : streamsText tool key = some true) :
    pieces env (openCall tool.definition.name key ++ ['1']) tools
      = some (tool.definition.name,
          [⟨['\x7b'], none⟩, ⟨openJson 1 key ++ ['"', '1'], some (key, ['1'])⟩]) := by
  have hname := (hcompiled.compiled tool hmem).name
  have hwritten : written env tool (parameterOpen ++ (key ++ (">\n".toList ++ ['1']))) []
      = .started key ['1'] := by
    unfold written
    rw [parameterHeader_open hk]
    dsimp only
    rw [hm]
    rw [hk]
    rfl
  rw [pieces, functionHeader_openCall hname]
  dsimp only
  rw [hcompiled.get_of_mem hmem, Option.map_some, piecesLoop, hwritten]
  rfl

/-- One round of the loop of `parse_call`. -/
theorem parseParameters_finished {found : Option Tool} {rest after raw next : Text}
    {arguments : List (Text × Json)} (hh : parameterHeader rest = some (key, after))
    (hv : validParameterName key = true)
    (hs : splitOnce "</parameter>".toList (skipNewline after) = some (raw, next))
    (hnew : (!arguments.any fun entry => entry.1 == key) = true) (fuel : Nat) :
    parseParameters env found (fuel + 1) rest arguments
      = parseParameters env found fuel next (arguments ++ [(key, convert env (dropNewline raw)
          ((found.bind Tool.schema).bind fun schema => schema.parameter key))]) := by
  obtain ⟨parameter, ho, hk⟩ := Option.bind_eq_some_iff.mp hh
  have hne : (trimStart rest).isEmpty = false := by
    rw [stripPrefix_eq_some.mp ho]
    rfl
  rw [parseParameters]
  rw [hne, if_neg (by decide), ho]
  simp only [Option.elim_some, bind, Except.bind, hk, checkParameterName_eq_ok.mpr hv, hs]
  rw [hnew]
  rfl

theorem trimEnd_functionEnd (front : Text) :
    trimEnd (front ++ "</function>".toList) = front ++ "</function>".toList ∧
      trimEnd (front ++ "</function>\n".toList) = front ++ "</function>".toList := by
  have hl : trimEnd (front ++ "</function>".toList) = front ++ "</function>".toList := by
    have ht : front ++ "</function>".toList = (front ++ "</function".toList) ++ ['>'] := by
      rw [append_assoc]
      rfl
    rw [ht]
    exact rdropWhile_concat_neg _ _ _ (by decide)
  refine ⟨hl, ?_⟩
  have ht : front ++ "</function>\n".toList = (front ++ "</function>".toList) ++ ['\n'] := by
    rw [append_assoc]
    rfl
  rw [ht, trimEnd, rdropWhile_concat_pos _ _ _ (by decide)]
  exact hl

theorem parseCall_closed (hc : tools.Compiled) (hm : tool ∈ tools.tools)
    (hs : tool.strict = none) (hsch : tool.schema = some schema)
    (hk : validParameterName key = true) (hpar : schema.parameter key = some parameter)
    (hf : parameter.unconstrained = true) (ho : env.fromStr ['1'] = .ok (.number ['1'])) :
    parseCall env (openCall tool.definition.name key ++ '1' :: closeParameters) tools
      = .ok (tool.definition.name, [(key, .number ['1'])]) := by
  have hn := (hc.compiled tool hm).name
  have hg := hc.get_of_mem hm
  generalize tool.definition.name = name at hn hg ⊢
  have hb : trim (openCall name key ++ '1' :: closeParameters)
      = "<function=".toList ++ (name ++ (['>'] ++ (parameterOpen ++ (key ++ (">\n".toList ++
          "1\n</parameter>\n".toList)) ++ "</function>".toList))) := by
    have ht : trimStart (openCall name key ++ '1' :: closeParameters)
        = "<function=".toList ++ (name ++ (['>'] ++ (parameterOpen ++ (key ++ (">\n".toList ++
          "1\n</parameter>\n".toList))))) ++ "</function>\n".toList := by
      have hcl : '1' :: closeParameters
          = "1\n</parameter>\n".toList ++ "</function>\n".toList := rfl
      rw [openCall, hcl]
      simp only [append_assoc]
      rfl
    rw [trim, ht, (trimEnd_functionEnd _).2]
    simp only [append_assoc]
  have hp : parseParameters env (some tool)
      ((parameterOpen ++ (key ++ (">\n".toList ++ "1\n</parameter>\n".toList))).length + 1)
      (parameterOpen ++ (key ++ (">\n".toList ++ "1\n</parameter>\n".toList))) []
        = .ok [(key, .number ['1'])] := by
    have hv : convert env ['1'] (tool.schema.bind fun schema => schema.parameter key)
        = .number ['1'] := by
      rw [hsch, Option.bind_some, hpar]
      simp [convert, hf, ho, Except.toOption]
    have he : splitOnce "</parameter>".toList (skipNewline ('\n' :: "1\n</parameter>\n".toList))
        = some (['1'] ++ ['\n'], ['\n']) := rfl
    rw [parseParameters_finished (parameterHeader_open hk _) hk he rfl, dropNewline_concat,
      Option.bind_some, hv]
    have hl : (parameterOpen ++ (key ++ (">\n".toList ++ "1\n</parameter>\n".toList))).length
        = ("<parameter=".toList ++ (key ++ (">\n".toList ++ "1\n</parameter>\n".toList))).length + 1 :=
      rfl
    rw [hl]
    rfl
  have hst : ∀ front text : Text, stripPrefix front (front ++ text) = some text :=
    fun front text => stripPrefix_eq_some.mpr rfl
  have hbo : stripSuffix "</function>".toList (trimEnd
      (parameterOpen ++ (key ++ (">\n".toList ++ "1\n</parameter>\n".toList)) ++ "</function>".toList))
        = some (parameterOpen ++ (key ++ (">\n".toList ++ "1\n</parameter>\n".toList))) := by
    rw [(trimEnd_functionEnd _).1]
    exact stripSuffix_eq_some.mpr rfl
  have hsp : ∀ rest : Text, splitOnce ['>'] (name ++ (['>'] ++ rest)) = some (name, rest) :=
    fun rest => splitOnce_of_notMem (notMem_of_validToolName hn (by decide)) rest
  rw [parseCall, hb, hst]
  simp only [Option.elim_some, bind, Except.bind, hsp, hbo, checkToolName_eq_ok.mpr hn, hg, hp]
  rw [validateStrict, Option.filter_some, hs]
  rfl

theorem feed_open {text : Text} (nextCallId : CallId) (hend : callEnd text tools = none) :
    feed env tools (record (L := L)) (callStart ++ text) (ToolCallParser.new nextCallId) []
      = stream env tools record { ToolCallParser.new nextCallId with
            pending := text, consumed := utf8Len callStart, inCall := true } [] := by
  have hs : splitOnce callStart (callStart ++ text) = some ([], text) := by
    rw [splitOnce_of_isPrefix (prefix_append _ _), drop_left]
  obtain ⟨fuel, hf⟩ : ∃ fuel, (callStart ++ text).length = fuel + 1 :=
    ⟨("tool_call>".toList ++ text).length, rfl⟩
  have ho : ([] ++ (callStart ++ text)) = callStart ++ text := rfl
  unfold feed
  rw [if_neg (by simp [ToolCallParser.new])]
  dsimp only [ToolCallParser.new]
  rw [ho, hf, feedLoop, if_neg (by simp)]
  rw [hs]
  have hemp : emitText (record (L := L)) (trimEnd []) 0
      { pending := text, inCall := true, afterCall := false, failure := none, streamed := none,
        consumed := 0 + utf8Len ([] ++ callStart), nextCallId } []
      = ({ pending := text, inCall := true, afterCall := false, failure := none, streamed := none,
           consumed := 0 + utf8Len ([] ++ callStart), nextCallId }, [], true) := rfl
  dsimp only
  rw [hemp]
  rw [if_pos rfl, feedLoop, if_pos rfl]
  rw [hend]
  rfl

theorem feed_close {text block marker name : Text} {strict : Option Tool}
    {arguments : List (Text × Json)} {p : ToolCallParser} (log : List (Event L))
    (hf : p.failure = none) (hin : p.inCall = true)
    (he : callEnd (p.pending ++ text) tools = some (block, [], marker, strict))
    (hp : parseBlock env tools block strict = .ok (name, arguments)) :
    (feed env tools record text p log).2.1 = log ++ [.toolCall
      ⟨(p.streamed.map Streamed.id).getD p.nextCallId, name, .object arguments⟩] := by
  unfold feed
  rw [if_neg (by simp [hf])]
  rw [feedLoop, if_pos hin]
  rw [he]
  dsimp only
  rw [hp]
  generalize (p.pending ++ text).length = fuel
  cases fuel with
  | zero => rfl
  | succ => rfl

theorem ambiguous_call (hcompiled : tools.Compiled) (hmem : tool ∈ tools.tools)
    (hs : tool.strict = none) (hsch : tool.schema = some schema)
    (hkey : validParameterName key = true) (hpar : schema.parameter key = some parameter)
    (ha : parameter.ambiguous = true) (hone : env.fromStr ['1'] = .ok (.number ['1']))
    (nextCallId : CallId) : ∃ pieces call, LaidOut tools false pieces.flatten ∧
      .toolCall call ∈ (feedAll L env tools nextCallId pieces).2 ∧
      ¬ Spelled (feedAll L env tools nextCallId pieces).2 call := by
  obtain ⟨hany, hfr⟩ : parameter.anyString = true ∧ parameter.unconstrained = true := by
    simpa [Parameter.ambiguous] using ha
  have hmode : streamsText tool key = some true := by
    simp [streamsText, hs, hsch, hpar, hany]
  have hend : callEnd (openCall tool.definition.name key ++ ['1']) tools = none :=
    callEnd_openCall hcompiled hmem hs hkey ['1']
  have hend' : callEnd (openCall tool.definition.name key ++ ['1'] ++ (closeParameters ++ callEndTag))
      tools = some (openCall tool.definition.name key ++ '1' :: closeParameters, [], callEndTag, none) := by
    rw [append_assoc]
    exact callEnd_openCall hcompiled hmem hs hkey _
  have hp : parseBlock env tools (openCall tool.definition.name key ++ '1' :: closeParameters) none
      = .ok (tool.definition.name, [(key, .number ['1'])]) :=
    parseCall_closed hcompiled hmem hs hsch hkey hpar hfr hone
  have hn := (hcompiled.compiled tool hmem).name
  have hl : LaidOut tools false
      [callStart ++ (openCall tool.definition.name key ++ ['1']), closeParameters ++ callEndTag].flatten := by
    have ht : [callStart ++ (openCall tool.definition.name key ++ ['1']),
        closeParameters ++ callEndTag].flatten = callStart ++
          (openCall tool.definition.name key ++ ['1'] ++ (closeParameters ++ callEndTag)) := by
      simp only [flatten_cons, flatten_nil, append_assoc, append_nil]
    have hst : ∀ text : Text, splitOnce callStart (callStart ++ text) = some ([], text) := by
      intro text
      rw [splitOnce_of_isPrefix (prefix_append _ _), drop_left]
    intro block hb
    rw [ht, blocks_start (hst _), blocks_call hend', blocks_text rfl] at hb
    rw [mem_singleton.mp hb]
    intro name rest other hh hg ho
    rw [functionHeader_openCall hn] at hh
    cases hh
    rw [hcompiled.get_of_mem hmem] at hg
    cases hg
    rw [hs] at ho
    cases ho
  refine ⟨_, ⟨nextCallId, tool.definition.name, .object [(key, .number ['1'])]⟩, hl, ?_⟩
  -- the deltas of the first piece
  have hle : (⟨[], none⟩ : Piece).Le ⟨['\x7b'], none⟩ := by
    have := Piece.Le.opening [] ['\x7b'] none fun hnil => by cases hnil
    simpa using this
  obtain ⟨streamed, new, front, last, hrun, hse, hf, hid, -, hnew⟩ :=
    sendPieces_sent (L := L) (utf8Len callStart)
      [⟨openJson 1 key ++ ['"', '1'], some (key, ['1'])⟩] []
      (Sent.start nextCallId tool.definition.name) hle (by simp)
  have hfirst : feed env tools (record (L := L))
      (callStart ++ (openCall tool.definition.name key ++ ['1'])) (ToolCallParser.new nextCallId) []
      = ({ ToolCallParser.new nextCallId with
            pending := openCall tool.definition.name key ++ ['1'], consumed := utf8Len callStart,
            inCall := true, streamed := some streamed, nextCallId := nextCallId + 1 },
          new.map .toolCallDelta, true) := by
    rw [feed_open nextCallId hend, stream]
    rw [pieces_openCall hcompiled hmem hkey hmode]
    have hrun' : sendPieces record 1 (utf8Len callStart)
        ([⟨['\x7b'], none⟩, ⟨openJson 1 key ++ ['"', '1'], some (key, ['1'])⟩].zipIdx.drop 0)
        ⟨nextCallId, tool.definition.name, 0, 0, 0⟩ []
          = (streamed, new.map .toolCallDelta, true) := hrun
    dsimp only [ToolCallParser.counters, ToolCallParser.new]
    rw [length_cons, length_cons, length_nil, hrun']
  have hlog : (feedAll L env tools nextCallId
      [callStart ++ (openCall tool.definition.name key ++ ['1']), closeParameters ++ callEndTag]).2
      = new.map .toolCallDelta ++ [.toolCall
        ⟨nextCallId, tool.definition.name, .object [(key, .number ['1'])]⟩] := by
    unfold feedAll
    rw [foldl_cons, foldl_cons, foldl_nil]
    rw [hfirst]
    refine (feed_close _ rfl rfl hend' hp).trans ?_
    rw [Option.map_some, Option.getD_some, hid]
  rw [hlog]
  refine ⟨by simp, fun hspelled => ?_⟩
  have hd : deltasOf nextCallId (new.map .toolCallDelta ++ [.toolCall
      ⟨nextCallId, tool.definition.name, .object [(key, .number ['1'])]⟩] : List (Event L)) = new := by
    rw [deltasOf_append, deltasOf_new fun delta hde => (hnew delta hde).1]
    exact append_nil _
  have hpre := hspelled.1
  rw [hd, ← nil_append new, hse.arguments, hf] at hpre
  have ht : (Json.object [(key, .number ['1'])]).toText
      = ['\x7b'] ++ openJson 1 key ++ ['1', '\x7d'] := by
    simp [Json.toText, membersText, openJson]
  have hspell : ([] ++ [⟨['\x7b'], none⟩, ⟨openJson 1 key ++ ['"', '1'], some (key, ['1'])⟩]
      : List Piece).flatMap Piece.json = ['\x7b'] ++ openJson 1 key ++ ['"', '1'] := by
    simp
  rw [hspell, ht, prefix_append_right_inj] at hpre
  obtain ⟨back, hba⟩ := hpre
  cases hba

/-! ### Exactly then -/

/-- **The deltas of every completed call spell a beginning of its arguments**, in
every text and however it is cut, exactly when no parameter is ambiguous. -/
theorem deltas_spell_arguments_iff {js : Jsonschema} {translators : Translators}
    {definitions : List ToolDefinition} (hstrings : AcceptsStrings js) (hcut : JsonCut env)
    (hone : env.fromStr ['1'] = .ok (.number ['1'])) (nextCallId : CallId)
    (htools : ToolSet.new env js translators definitions = .ok tools) :
    (∀ pieces call, LaidOut tools false pieces.flatten →
      .toolCall call ∈ (feedAll L env tools nextCallId pieces).2 →
      Spelled (feedAll L env tools nextCallId pieces).2 call) ↔
    ∀ tool ∈ tools.tools, tool.Unambiguous := by
  have hc := ToolSet.new_compiled hstrings htools
  constructor
  · intro hsp tool hm hs schema hsch key parameter hp
    rw [← Bool.not_eq_true]
    intro ha
    obtain ⟨key, hk, hp⟩ :=
      exists_ambiguous_name (hc.compiled tool hm) hsch hp
    obtain ⟨pieces, call, hl, hca, hn⟩ := ambiguous_call hc hm hs hsch hk hp ha hone nextCallId
    exact hn (hsp pieces call hl hca)
  · intro hpl pieces call hl hca
    have hso : ∀ name tool, tools.get name = some tool → TextSound env tool := by
      intro name tool hg
      have hm := (ToolSet.get_eq_some hg).1
      exact (hc.compiled tool hm).textSound (hpl tool hm)
    exact ((feedAll_streaming hc hcut hso nextCallId hl).calls call hca).2

/-! ### Two tools -/

/-- JSON texts of one digit, and nothing else. -/
def digitEnv : Env where
  fromStr := fun
    | [c] => if c.isDigit then .ok (.number [c]) else .error "expected value".toList
    | _ => .error "expected value".toList
  debug := quote

/-- Schemas whose parameters are valid where `accepts` says so. -/
def kindSchema (accepts : Json → Bool) : Jsonschema where
  build := fun _ => .ok fun _ => none
  prepare := fun _ => .ok ()
  buildWith := fun _ _ => .ok accepts

def noTranslators : Translators where
  searchPattern := fun _ => .error []
  larkToRegex := fun _ => .error []
  checkNonempty := fun _ => .error []

def setTool (kinds : List String) : ToolDefinition where
  name := "set".toList
  description := none
  parameters := .object [("type".toList, .string "object".toList),
    ("properties".toList, .object [("k".toList, .object
      [("type".toList, .array (kinds.map fun kind => .string kind.toList))])])]
  strict := false

def setCompiled (kinds : List String) (accepts : Json → Bool) : ToolSet :=
  ⟨[{ definition := setTool kinds, strict := none,
      schema := some
        { arguments := fun _ => none, additional := none,
          properties := [("k".toList,
            { validator := accepts, unconstrained := probes.all accepts,
              anyString := kinds.any fun kind => kind.toList == "string".toList })] } }]⟩

def allKinds : List String := ["string", "number", "boolean", "null", "array", "object"]

theorem digitEnv_cut : JsonCut digitEnv := by
  intro before after value _ h
  have hl : before ++ "</parameter>".toList ++ after
      = before ++ '<' :: '/' :: ("parameter>".toList ++ after) := by
    rw [append_assoc]
    rfl
  rw [hl] at h
  match before, h with
  | [], h => cases h
  | [_], h => cases h
  | _ :: _ :: _, h => cases h

theorem deltas_spell_string :
    (∀ tool ∈ (setCompiled ["string"] fun value => value.asStr.isSome).tools, tool.Unambiguous) ∧
    ∀ pieces call,
      LaidOut (setCompiled ["string"] fun value => value.asStr.isSome) false pieces.flatten →
      .toolCall call ∈ (feedAll Unit digitEnv
        (setCompiled ["string"] fun value => value.asStr.isSome) 0 pieces).2 →
      Spelled (feedAll Unit digitEnv
        (setCompiled ["string"] fun value => value.asStr.isSome) 0 pieces).2 call := by
  have hs : AcceptsStrings (kindSchema fun value => value.asStr.isSome) := by
    intro map pointer declared validator _ _ hb text
    cases hb
    rfl
  have ht : ToolSet.new digitEnv (kindSchema fun value => value.asStr.isSome) noTranslators
      [setTool ["string"]] = .ok (setCompiled ["string"] fun value => value.asStr.isSome) := rfl
  have hp : ∀ tool ∈ (setCompiled ["string"] fun value => value.asStr.isSome).tools,
      tool.Unambiguous := by
    intro tool hm _ schema hsch key parameter hpar
    cases mem_singleton.mp hm
    cases hsch
    rcases ArgumentSchema.parameter_eq_some hpar with hin | hn
    · cases mem_singleton.mp hin
      rfl
    · cases hn
  exact ⟨hp, (deltas_spell_arguments_iff hs digitEnv_cut rfl 0 ht).mpr hp⟩

/-- **A value of every type**: `1` streams as the start of a string and ends as a
number. -/
theorem deltas_misspell_number :
    ToolSet.new digitEnv (kindSchema fun _ => true) noTranslators [setTool allKinds]
        = .ok (setCompiled allKinds fun _ => true) ∧
      (feedAll Unit digitEnv (setCompiled allKinds fun _ => true) 0
          ["<tool_call>\n<function=set>\n<parameter=k>\n1".toList,
            "\n</parameter>\n</function>\n</tool_call>".toList]).2
        = [.toolCallDelta ⟨0, "set".toList, "\x7b".toList, none⟩,
            .toolCallDelta ⟨0, "set".toList, "\"k\":\"1".toList, some ("k".toList, "1".toList)⟩,
            .toolCall ⟨0, "set".toList, .object [("k".toList, .number "1".toList)]⟩] ∧
      ¬ Spelled (feedAll Unit digitEnv (setCompiled allKinds fun _ => true) 0
          ["<tool_call>\n<function=set>\n<parameter=k>\n1".toList,
            "\n</parameter>\n</function>\n</tool_call>".toList]).2
        ⟨0, "set".toList, .object [("k".toList, .number "1".toList)]⟩ := by
  refine ⟨rfl, rfl, fun hspelled => ?_⟩
  have hpre : "\x7b\"k\":\"1".toList <+:
      (Json.object [("k".toList, .number "1".toList)]).toText := hspelled.1
  revert hpre
  decide

end LocalAi.Tools
