import ProjectRoots.Json.Record
import ProjectRoots.Proofs.Json.Lexing

/- Reading the values that were written. The reader goes through the tokens of a value and ends up
   behind it, wherever the value stands, so nothing is asked of the values that it is put into.

     1. `reads_tokens` — a value is read from its tokens, by the recursion that writes them.
     2. `Reads.isChain` — tokens that can be read never have two numbers in a row, so a text can be
        cut into them.
     3. `ofText?_text` — a value is read back from its text.
     4. `fieldsOfMembers_of_subset` — and its members are found by their names. -/
namespace ProjectRoots.Json.Value

/-- The reader gets over the tokens. -/
def Reads (before : Expecting) (tokens : List Token) (after : Expecting) : Prop :=
  tokens.foldlM step before = some after

theorem Reads.append {before middle after : Expecting} {first second : List Token}
    (hfirst : Reads before first middle) (hsecond : Reads middle second after) :
    Reads before (first ++ second) after := by
  unfold Reads at *
  rw [List.foldlM_append, hfirst]
  exact hsecond

theorem reads_cons_iff {before after : Expecting} {token : Token} {tokens : List Token} :
    Reads before (token :: tokens) after ↔
      ∃ middle, step before token = some middle ∧ Reads middle tokens after := by
  unfold Reads
  rw [List.foldlM_cons]
  exact Option.bind_eq_some_iff

theorem Reads.cons {before middle after : Expecting} {token : Token} {tokens : List Token}
    (hreads : Reads middle tokens after) (hstep : step before token = some middle) :
    Reads before (token :: tokens) after :=
  reads_cons_iff.2 ⟨middle, hstep, hreads⟩

/-- The first item of an array is read like any other. -/
theorem Reads.firstItem {item : Value} {items : List Value} {outer : Place} {after : Expecting}
    (hreads : Reads (.value (.item [] outer))
      (commaSeparated (itemTokens (item :: items)) ++ [.closeArray]) after) :
    Reads (.firstItem outer)
      (commaSeparated (itemTokens (item :: items)) ++ [.closeArray]) after := by
  cases items <;> cases item <;> exact hreads

/-- And so is the first key of an object. -/
theorem Reads.firstKey {member : Option String × Value} {members : List (Option String × Value)}
    {outer : Place} {after : Expecting}
    (hreads : Reads (.key [] outer)
      (commaSeparated (memberTokens (member :: members)) ++ [.closeObject]) after) :
    Reads (.firstKey outer)
      (commaSeparated (memberTokens (member :: members)) ++ [.closeObject]) after := by
  cases members <;> exact hreads

mutual

/-- A value is read from its tokens, wherever it stands. -/
theorem reads_tokens (value : Value) (place : Place) :
    Reads (.value place) value.tokens (.done value place) := by
  cases value with
  | array items =>
    cases items with
    | nil => rfl
    | cons item items =>
      exact (reads_items (item :: items) [] place (List.cons_ne_nil _ _)).firstItem.cons rfl
  | object members =>
    cases members with
    | nil => rfl
    | cons member members =>
      exact (reads_members (member :: members) [] place (List.cons_ne_nil _ _)).firstKey.cons rfl
  | _ => rfl

/-- The items of an array up to its end, behind those that are read already. -/
theorem reads_items (items done : List Value) (outer : Place) (hsome : items ≠ []) :
    Reads (.value (.item done outer)) (commaSeparated (itemTokens items) ++ [.closeArray])
      (.done (.array (done.reverse ++ items)) outer) := by
  cases items with
  | nil => exact absurd rfl hsome
  | cons item rest =>
    have hitem := reads_tokens item (.item done outer)
    cases rest with
    | nil =>
      have hend : Reads (.done item (.item done outer)) [.closeArray]
        (.done (.array (item :: done).reverse) outer) := rfl
      rw [List.reverse_cons] at hend
      exact hitem.append hend
    | cons next rest =>
      have hcomma : step (.done item (.item done outer)) .comma =
        some (.value (.item (item :: done) outer)) := rfl
      have hrest := reads_items (next :: rest) (item :: done) outer (List.cons_ne_nil _ _)
      -- What is read already is kept with the last item first.
      have hall := hitem.append (hrest.cons hcomma)
      rwa [List.reverse_cons, List.append_assoc, ← List.cons_append, ← List.append_assoc] at hall

/-- The members of an object up to its end, behind those that are read already. -/
theorem reads_members (members done : List (Option String × Value)) (outer : Place)
    (hsome : members ≠ []) :
    Reads (.key done outer) (commaSeparated (memberTokens members) ++ [.closeObject])
      (.done (.object (done.reverse ++ members)) outer) := by
  cases members with
  | nil => exact absurd rfl hsome
  | cons member rest =>
    obtain ⟨key, value⟩ := member
    have hmember : Reads (.key done outer) (.string key :: .colon :: value.tokens)
        (.done value (.member done key outer)) :=
      ((reads_tokens value _).cons rfl).cons rfl
    cases rest with
    | nil =>
      have hend : Reads (.done value (.member done key outer)) [.closeObject]
        (.done (.object ((key, value) :: done).reverse) outer) := rfl
      rw [List.reverse_cons] at hend
      exact hmember.append hend
    | cons next rest =>
      have hcomma : step (.done value (.member done key outer)) .comma =
        some (.key ((key, value) :: done) outer) := rfl
      have hrest := reads_members (next :: rest) ((key, value) :: done) outer
        (List.cons_ne_nil _ _)
      have hall := hmember.append (hrest.cons hcomma)
      rwa [List.reverse_cons, List.append_assoc, ← List.cons_append, ← List.append_assoc] at hall

end

theorem ofTokens?_tokens (value : Value) : ofTokens? value.tokens = some value := by
  have hreads : value.tokens.foldlM step (.value .top) = some (.done value .top) :=
    reads_tokens value .top
  rw [ofTokens?, hreads]
  rfl

/-! ## Texts -/

theorem step_number {before after : Expecting} {n : Numeral}
    (hstep : step before (.number n) = some after) : ∃ place, after = .done (.number n) place := by
  cases before with
  | value place => exact ⟨place, (Option.some.inj hstep).symm⟩
  | firstItem outer => exact ⟨.item [] outer, (Option.some.inj hstep).symm⟩
  | done value place => cases place <;> cases hstep
  | _ => cases hstep

/-- A number is never read behind another. -/
theorem apart_of_step {before middle after : Expecting} {first second : Token}
    (hfirst : step before first = some middle) (hsecond : step middle second = some after) :
    first.Apart second := by
  intro hnumber
  cases first with
  | number n =>
    obtain ⟨place, rfl⟩ := step_number hfirst
    cases second with
    | number m => cases place <;> cases hsecond
    | _ => rfl
  | _ => cases hnumber

theorem Reads.isChain {before after : Expecting} {tokens : List Token}
    (hreads : Reads before tokens after) : tokens.IsChain Token.Apart := by
  induction tokens generalizing before with
  | nil => exact .nil
  | cons first rest ih =>
    obtain ⟨middle, hfirst, hrest⟩ := reads_cons_iff.1 hreads
    cases rest with
    | nil => exact .singleton first
    | cons second rest =>
      obtain ⟨_, hsecond, _⟩ := reads_cons_iff.1 hrest
      exact .cons_cons (apart_of_step hfirst hsecond) (ih hrest)

/-- All texts in the value are texts, and all numbers natural numbers. -/
def IsPlain (value : Value) : Prop :=
  ∀ token ∈ value.tokens, token.IsPlain

theorem lex_tokens {value : Value} (hplain : value.IsPlain) :
    lex value.text.toList = some value.tokens := by
  rw [text, String.toList_ofList]
  -- The tokens can be read, so no number stands behind another.
  exact Token.lex_text hplain (reads_tokens value .top).isChain

theorem ofText?_text {value : Value} (hplain : value.IsPlain) :
    ofText? value.text = some value := by
  rw [ofText?, lex_tokens hplain]
  exact ofTokens?_tokens value

/-! ## Plain values -/

theorem mem_commaSeparated {token : Token} {parts : List (List Token)}
    (hmem : token ∈ commaSeparated parts) :
    token = .comma ∨ ∃ part ∈ parts, token ∈ part := by
  fun_induction commaSeparated parts with
  | case1 => cases hmem
  | case2 last => exact Or.inr ⟨last, List.mem_singleton_self _, hmem⟩
  | case3 first rest _ ih =>
    rcases List.mem_append.1 hmem with hfirst | hrest
    · exact Or.inr ⟨first, List.mem_cons_self, hfirst⟩
    · rcases List.mem_cons.1 hrest with hcomma | hrest
      · exact Or.inl hcomma
      · rcases ih hrest with hcomma | ⟨part, hpart, htoken⟩
        · exact Or.inl hcomma
        · exact Or.inr ⟨part, List.mem_cons_of_mem _ hpart, htoken⟩

theorem itemTokens_eq_map (items : List Value) : itemTokens items = items.map tokens := by
  induction items with
  | nil => rfl
  | cons item rest ih => rw [itemTokens, ih, List.map_cons]

theorem memberTokens_eq_map (members : List (Option String × Value)) :
    memberTokens members =
      members.map fun member => .string member.1 :: .colon :: member.2.tokens := by
  induction members with
  | nil => rfl
  | cons member rest ih => rw [memberTokens, ih, List.map_cons]

theorem isPlain_ofString (s : String) : (ofString s).IsPlain := by
  intro token hmem
  rw [List.mem_singleton.1 hmem]
  exact ⟨s, rfl⟩

theorem isPlain_bool (b : Bool) : (bool b).IsPlain := by
  intro token hmem
  rw [List.mem_singleton.1 hmem]
  trivial

theorem isPlain_ofNat (n : Nat) : (number (.ofNat n)).IsPlain := by
  intro token hmem
  rw [List.mem_singleton.1 hmem]
  exact ⟨n, rfl⟩

theorem plain_between {opening closing : Token} {parts : List (List Token)}
    (hopening : opening.IsPlain) (hclosing : closing.IsPlain)
    (hparts : ∀ part ∈ parts, ∀ token ∈ part, token.IsPlain) :
    ∀ token ∈ opening :: commaSeparated parts ++ [closing], token.IsPlain := by
  intro token hmem
  rw [List.cons_append, List.mem_cons, List.mem_append, List.mem_singleton] at hmem
  rcases hmem with rfl | hmem | rfl
  · exact hopening
  · rcases mem_commaSeparated hmem with rfl | ⟨part, hpart, htoken⟩
    · trivial
    · exact hparts part hpart token htoken
  · exact hclosing

theorem isPlain_array {items : List Value} (hitems : ∀ item ∈ items, item.IsPlain) :
    (array items).IsPlain := by
  apply plain_between
  · trivial
  · trivial
  · rw [itemTokens_eq_map, List.forall_mem_map]
    exact hitems

theorem isPlain_ofMembers {members : List (String × Value)}
    (hmembers : ∀ member ∈ members, member.2.IsPlain) : (ofMembers members).IsPlain := by
  apply plain_between
  · trivial
  · trivial
  · rw [memberTokens_eq_map, List.forall_mem_map, List.forall_mem_map]
    intro member hmem
    refine List.forall_mem_cons.2 ⟨⟨member.1, rfl⟩, ?_⟩
    exact List.forall_mem_cons.2 ⟨trivial, hmembers member hmem⟩

/-! ## Records -/

theorem mapM_map_eq_some {α β γ : Type} {read? : β → Option γ} {write : α → β} {value : α → γ}
    {items : List α} (hread : ∀ item ∈ items, read? (write item) = some (value item)) :
    (items.map write).mapM read? = some (items.map value) := by
  induction items with
  | nil => rfl
  | cons item rest ih =>
    obtain ⟨hitem, hrest⟩ := List.forall_mem_cons.1 hread
    rw [List.map_cons, List.mapM_cons, hitem, ih hrest]
    rfl

theorem filter_fst_of_nodup {members : List (String × Value)}
    (hnodup : (members.map Prod.fst).Nodup) {member : String × Value} (hmem : member ∈ members) :
    members.filter (·.1 == member.1) = [member] := by
  induction members with
  | nil => cases hmem
  | cons first rest ih =>
    obtain ⟨hfresh, hrest⟩ := List.nodup_cons.1 hnodup
    rcases List.mem_cons.1 hmem with rfl | hmem
    · have hothers : rest.filter (·.1 == member.1) = [] := by
        refine List.filter_eq_nil_iff.2 fun other hother hsame => hfresh ?_
        exact List.mem_map.2 ⟨other, hother, eq_of_beq hsame⟩
      rw [List.filter_cons, if_pos (beq_self_eq_true _), hothers]
    · have hother : ¬(first.1 == member.1) = true := fun hsame =>
        hfresh (List.mem_map.2 ⟨member, hmem, (eq_of_beq hsame).symm⟩)
      rw [List.filter_cons, if_neg hother]
      exact ih hrest hmem

theorem member?_of_mem {members : List (String × Value)} (hnodup : (members.map Prod.fst).Nodup)
    {member : String × Value} (hmem : member ∈ members) :
    member? members member.1 = some (some member.2) := by
  rw [member?, filter_fst_of_nodup hnodup hmem]

/-- Fields are found by their names, whatever other members there are. -/
theorem fieldsOfMembers_of_subset {members chosen : List (String × Value)}
    (hnodup : (members.map Prod.fst).Nodup) (hsub : chosen ⊆ members) :
    fieldsOfMembers (chosen.map Prod.fst) members =
      some (chosen.map fun member => some member.2) :=
  mapM_map_eq_some fun _ hmem => member?_of_mem hnodup (hsub hmem)

theorem named_ofMembers (members : List (String × Value)) :
    named (members.map fun member => (some member.1, member.2)) = some members := by
  unfold named
  refine (mapM_map_eq_some ?_).trans (congrArg some (List.map_id members))
  exact fun _ _ => rfl

theorem fields_ofMembers {members : List (String × Value)}
    (hnodup : (members.map Prod.fst).Nodup) :
    fields (members.map Prod.fst) (ofMembers members) =
      some (members.map fun member => some member.2) := by
  rw [ofMembers, fields, named_ofMembers]
  exact fieldsOfMembers_of_subset hnodup (List.Subset.refl _)

theorem list?_array {α : Type} {read? : Value → Option α} {write : α → Value}
    (hread : ∀ item, read? (write item) = some item) (items : List α) :
    list? read? (.array (items.map write)) = some items := by
  exact (mapM_map_eq_some fun item _ => hread item).trans (congrArg some (List.map_id items))

end ProjectRoots.Json.Value
