import Interim.Compiler.Session
import Interim.Sledge.StrMap

/-!
# The global environment

Model of `lookup_global_symbol` and `insert_symbol` (`sledge/compiler_new.c`,
lines 24–59) on the string map `global_env` and the `env_entry`s `malloc`
returned; there is memory for all of them.

* `insertSymbols_refines`: whatever is inserted, lookups and `sm_enum` see the
  list of entries on which `compile_expr` and the collector are modelled.
* `entry_stays`: the address of an entry, which compiled code holds, stays that
  of its name, and what is there is the cell inserted last.
-/

namespace Interim.Compiler

open Sledge (StrMap smNew smGet smPut smEnum hashNat)

/-! ## Model -/

/-- `MAX_SYMBOL_SIZE` (`minilisp.h`, line 66). -/
def maxSymbolSize : ℕ := 64

/-- `global_env` and the entries. The address of `entries[i]` is `i + 1`. -/
structure Environment where
  map : StrMap
  entries : List EnvEntry

/-- `sm_new(1000)` (line 1774). -/
def newEnvironment : Environment := ⟨smNew 1000, []⟩

namespace Environment

/-- `lookup_global_symbol(name)`: an address, or `NULL`. -/
def lookupGlobalSymbol (env : Environment) (name : List UInt8) : Except Stop (Option ℕ) :=
  smGet env.map (some name)

/-- `*e`. -/
def entryAt (env : Environment) (e : ℕ) : Except Stop EnvEntry :=
  if e = 0 then .error .fault
  else
    match env.entries[e - 1]? with
    | some entry => .ok entry
    | none => .error .fault

/-- `insert_symbol(symbol, cell, &global_env)`: what is returned, `none` standing
    for what `alloc_nil` returns. -/
def insertSymbol (env : Environment) (name : List UInt8) (cell : Word) :
    Except Stop (Environment × Option Word) := do
  match ← smGet env.map (some name) with
  | some e => do
    let entry ← env.entryAt e
    .ok (⟨env.map, env.entries.set (e - 1) { entry with cell := cell }⟩, some cell)
  | none =>
    if maxSymbolSize ≤ name.length then .ok (env, none)
    else do
      let entries := env.entries ++ [⟨cell, name⟩]
      let (map, _) ← smPut env.map ⟨some name, entries.length, true⟩
      .ok (⟨map, entries⟩, some cell)

/-- `sm_enum(global_env, iter, NULL)` for an `iter` that uses the entry its
    `value` points to, as `list_symbols_iter` and `collect_garbage_iter` do. -/
def enum {σ : Type} (env : Environment) (iter : σ → EnvEntry → Except Stop σ) (s : σ) :
    Except Stop σ :=
  smEnum env.map (fun s _ value => do iter (← s) (← env.entryAt value)) (.ok s)

end Environment

/-- A sequence of calls of `insert_symbol`, and what each returns. -/
def insertSymbols : List (List UInt8 × Word) → Environment →
    Except Stop (Environment × List (Option Word))
  | [], env => .ok (env, [])
  | (name, cell) :: calls, env => do
    let (env, ret) ← env.insertSymbol name cell
    let (env, rets) ← insertSymbols calls env
    .ok (env, ret :: rets)

/-! ## The list of entries -/

/-- What `insert_symbol` does to the list of entries. -/
def insertEntry (entries : List EnvEntry) (call : List UInt8 × Word) : List EnvEntry :=
  if maxSymbolSize ≤ call.1.length then entries else insertSymbol entries call.1 call.2

/-- What `insert_symbol` returns. -/
def insertReturn (call : List UInt8 × Word) : Option Word :=
  if maxSymbolSize ≤ call.1.length then none else some call.2

section Entries

variable {entries : List EnvEntry} {name name' : List UInt8} {cell : Word} {i : ℕ}

/-- The place of a name. -/
abbrev place (entries : List EnvEntry) (name : List UInt8) : Option ℕ :=
  entries.findIdx? fun e => e.name = name

theorem place_eq_some_iff (hn : (entries.map EnvEntry.name).Nodup) :
    place entries name = some i ↔ (entries[i]?).map EnvEntry.name = some name := by
  rw [place, List.findIdx?_eq_some_iff_getElem]
  constructor
  · rintro ⟨hi, hname, -⟩
    rw [List.getElem?_eq_getElem hi, Option.map_some, of_decide_eq_true hname]
  · intro h
    obtain ⟨e, he, rfl⟩ := Option.map_eq_some_iff.mp h
    obtain ⟨hi, rfl⟩ := List.getElem?_eq_some_iff.mp he
    refine ⟨hi, decide_eq_true rfl, fun j hj hname => ?_⟩
    have hj' : j < entries.length := by omega
    have hnames : (entries.map EnvEntry.name)[j]? = (entries.map EnvEntry.name)[i]? := by
      rw [List.getElem?_map, List.getElem?_map, List.getElem?_eq_getElem hj',
        List.getElem?_eq_getElem hi]
      exact congrArg some (of_decide_eq_true hname)
    have hlt : j < (entries.map EnvEntry.name).length := by rwa [List.length_map]
    have hij := (List.getElem?_inj hlt hn).mp hnames
    omega

theorem place_eq_none_iff : place entries name = none ↔ name ∉ entries.map EnvEntry.name := by
  rw [place, List.findIdx?_eq_none_iff, List.mem_map]
  constructor
  · rintro h ⟨e, he, rfl⟩
    exact absurd rfl (of_decide_eq_false (h e he))
  · exact fun h e he => decide_eq_false fun heq => h ⟨e, he, heq⟩

/-- A known name keeps its place and its entry gets the cell. -/
theorem insertSymbol_known (hn : (entries.map EnvEntry.name).Nodup)
    (hp : place entries name = some i) :
    insertSymbol entries name cell = entries.set i ⟨cell, name⟩ := by
  have hget := (place_eq_some_iff hn).mp hp
  obtain ⟨e, he, hname⟩ := Option.map_eq_some_iff.mp hget
  obtain ⟨hi, rfl⟩ := List.getElem?_eq_some_iff.mp he
  have hany : (entries.any fun e => e.name = name) = true :=
    List.any_eq_true.mpr ⟨entries[i], List.getElem_mem hi, decide_eq_true hname⟩
  rw [insertSymbol, if_pos hany]
  apply List.ext_getElem?
  intro j
  rw [List.getElem?_map, List.getElem?_set]
  by_cases hij : i = j
  · subst hij
    rw [if_pos rfl, if_pos hi, he, Option.map_some, if_pos hname, ← hname]
  · rw [if_neg hij]
    cases hj : entries[j]? with
    | none => rfl
    | some e' =>
      have hne : e'.name ≠ name := by
        intro heq
        have hpj : place entries name = some j := by
          rw [place_eq_some_iff hn, hj, ← heq]
          rfl
        rw [hp] at hpj
        exact hij (Option.some.inj hpj)
      rw [Option.map_some, if_neg hne]

/-- A new name gets the next place. -/
theorem insertSymbol_new (hp : place entries name = none) :
    insertSymbol entries name cell = entries ++ [⟨cell, name⟩] := by
  rw [insertSymbol, if_neg]
  intro hany
  obtain ⟨e, he, hname⟩ := List.any_eq_true.mp hany
  exact place_eq_none_iff.mp hp (List.mem_map.mpr ⟨e, he, of_decide_eq_true hname⟩)

theorem names_set (hp : (entries[i]?).map EnvEntry.name = some name) :
    (entries.set i ⟨cell, name⟩).map EnvEntry.name = entries.map EnvEntry.name := by
  rw [List.map_set]
  apply List.ext_getElem?
  intro j
  rw [List.getElem?_set, List.getElem?_map]
  by_cases hij : i = j
  · subst hij
    rw [if_pos rfl, hp]
    obtain ⟨e, he, -⟩ := Option.map_eq_some_iff.mp hp
    obtain ⟨hi, -⟩ := List.getElem?_eq_some_iff.mp he
    rw [if_pos (by simpa using hi)]
  · rw [if_neg hij]

theorem nodup_insertEntry (hn : (entries.map EnvEntry.name).Nodup) (call : List UInt8 × Word) :
    ((insertEntry entries call).map EnvEntry.name).Nodup := by
  rw [insertEntry]
  split
  · exact hn
  · cases hp : place entries call.1 with
    | some i => rwa [insertSymbol_known hn hp, names_set ((place_eq_some_iff hn).mp hp)]
    | none =>
      rw [insertSymbol_new hp, List.map_append, List.nodup_append']
      exact ⟨hn, List.nodup_singleton _, List.disjoint_singleton.mpr (place_eq_none_iff.mp hp)⟩

theorem place_append (e : EnvEntry) : place (entries ++ [e]) name =
    (place entries name).or (if e.name = name then some entries.length else none) := by
  rw [place, List.findIdx?_append]
  congr 1
  by_cases h : e.name = name
  · simp [h]
  · simp [h]

theorem place_congr {entries' : List EnvEntry}
    (h : entries'.map EnvEntry.name = entries.map EnvEntry.name) :
    place entries' name = place entries name := by
  have hfind : ∀ l : List EnvEntry, place l name =
      (l.map EnvEntry.name).findIdx? fun n => n = name := by
    intro l
    rw [List.findIdx?_map]
    rfl
  rw [hfind, hfind, h]

end Entries

/-! ## The map holds the places of the names -/

/-- The map is well formed and leads from each name to the address of its entry. -/
structure Environment.Ok (env : Environment) : Prop where
  map : env.map.Ok
  nodup : (env.entries.map EnvEntry.name).Nodup
  short : ∀ e ∈ env.entries, e.name.length < maxSymbolSize
  places : ∀ name, Chains.get hashNat env.map.buckets name =
    (place env.entries name).map (· + 1)

theorem newEnvironment_ok : newEnvironment.Ok :=
  ⟨Sledge.smNew_ok (by decide), List.nodup_nil, fun _ he => absurd he List.not_mem_nil,
    fun _ => Chains.get_replicate 1000⟩

section Environment

variable {env : Environment}

theorem Environment.Ok.lookup (h : env.Ok) (name : List UInt8) :
    env.lookupGlobalSymbol name = .ok ((place env.entries name).map (· + 1)) := by
  rw [Environment.lookupGlobalSymbol, h.map.get, h.places]

/-- A name that has an entry is short. -/
theorem Environment.Ok.short_of_place (h : env.Ok) {name : List UInt8} {i : ℕ}
    (hp : place env.entries name = some i) : name.length < maxSymbolSize := by
  obtain ⟨e, he, rfl⟩ := Option.map_eq_some_iff.mp ((place_eq_some_iff h.nodup).mp hp)
  exact h.short e (List.mem_of_getElem? he)

/-- One call. -/
theorem Environment.Ok.insert (h : env.Ok) (call : List UInt8 × Word) :
    ∃ env', env.insertSymbol call.1 call.2 = .ok (env', insertReturn call) ∧ env'.Ok ∧
      env'.entries = insertEntry env.entries call := by
  obtain ⟨name, cell⟩ := call
  have hget : smGet env.map (some name) = .ok ((place env.entries name).map (· + 1)) :=
    h.lookup name
  cases hp : place env.entries name with
  | some i =>
    rw [hp] at hget
    have hshort := h.short_of_place hp
    have hname := (place_eq_some_iff h.nodup).mp hp
    obtain ⟨e, he, hen⟩ := Option.map_eq_some_iff.mp hname
    have hat : env.entryAt (i + 1) = .ok e := by
      rw [Environment.entryAt, if_neg (Nat.succ_ne_zero i), Nat.add_sub_cancel, he]
    have hent : insertEntry env.entries (name, cell) = env.entries.set i ⟨cell, name⟩ :=
      (if_neg (Nat.not_le.mpr hshort)).trans (insertSymbol_known h.nodup hp)
    refine ⟨⟨env.map, env.entries.set i ⟨cell, name⟩⟩, ?_, ?_, hent.symm⟩
    · simp only [Environment.insertSymbol, hget, bind, Except.bind, Option.map_some, hat,
        Nat.add_sub_cancel, insertReturn, if_neg (Nat.not_le.mpr hshort), hen]
    · have hnames : (env.entries.set i ⟨cell, name⟩).map EnvEntry.name =
          env.entries.map EnvEntry.name := names_set hname
      refine ⟨h.map, hent ▸ nodup_insertEntry h.nodup (name, cell), fun e' he' => ?_, fun n => ?_⟩
      · rcases List.mem_or_eq_of_mem_set he' with he' | rfl
        · exact h.short e' he'
        · exact hshort
      · rw [place_congr hnames]
        exact h.places n
  | none =>
    rw [hp] at hget
    by_cases hlong : maxSymbolSize ≤ name.length
    · refine ⟨env, ?_, h, (if_pos hlong).symm⟩
      simp only [Environment.insertSymbol, hget, bind, Except.bind, Option.map_none,
        if_pos hlong, insertReturn]
    · have hlen : (env.entries ++ [(⟨cell, name⟩ : EnvEntry)]).length = env.entries.length + 1 :=
        List.length_append
      have hne : (env.entries ++ [(⟨cell, name⟩ : EnvEntry)]).length ≠ 0 := by
        rw [hlen]
        exact Nat.succ_ne_zero _
      obtain ⟨map', hput, hok, hbuckets⟩ :=
        h.map.put (m := Chains.get hashNat env.map.buckets) (fun _ => rfl) name _ true hne
      rw [if_pos (Or.inl rfl)] at hput hbuckets
      have hnew : Compiler.insertSymbol env.entries name cell = env.entries ++ [⟨cell, name⟩] :=
        insertSymbol_new hp
      refine ⟨⟨map', env.entries ++ [⟨cell, name⟩]⟩, ?_, ?_,
        ((if_neg hlong).trans hnew).symm⟩
      · simp only [Environment.insertSymbol, hget, bind, Except.bind, Option.map_none,
          if_neg hlong, hput, insertReturn]
      · have hent : insertEntry env.entries (name, cell) = env.entries ++ [⟨cell, name⟩] :=
          (if_neg hlong).trans hnew
        refine ⟨hok, hent ▸ nodup_insertEntry h.nodup (name, cell), fun e he => ?_, fun n => ?_⟩
        · rcases List.mem_append.mp he with he | he
          · exact h.short e he
          · rw [List.mem_singleton.mp he]
            exact Nat.not_le.mp hlong
        · change Chains.get hashNat map'.buckets n =
            (place (env.entries ++ [⟨cell, name⟩]) n).map (· + 1)
          rw [hbuckets, Chains.get_put h.map.wellFormed, place_append, h.places]
          by_cases hn : n = name
          · rw [hn, if_pos rfl, hp, Option.none_or, if_pos rfl, Option.map_some, hlen]
          · rw [if_neg hn, if_neg (Ne.symm hn), Option.or_none]

/-- Any number of calls. -/
theorem Environment.Ok.inserts (h : env.Ok) (calls : List (List UInt8 × Word)) :
    ∃ env', insertSymbols calls env = .ok (env', calls.map insertReturn) ∧ env'.Ok ∧
      env'.entries = calls.foldl insertEntry env.entries := by
  induction calls generalizing env with
  | nil => exact ⟨env, rfl, h, rfl⟩
  | cons call calls ih =>
    obtain ⟨env₁, hone, hok₁, hent₁⟩ := h.insert call
    obtain ⟨env', hrest, hok', hent'⟩ := ih hok₁
    refine ⟨env', ?_, hok', ?_⟩
    · rw [insertSymbols, hone]
      change (do let (env, rets) ← insertSymbols calls env₁; Except.ok (env, _ :: rets)) = _
      rw [hrest]
      rfl
    · rw [hent', hent₁]
      rfl

/-! ## Going through the entries -/

/-- The step of `sm_enum` for an `iter`. -/
abbrev visit {σ : Type} (env : Environment) (iter : σ → EnvEntry → Except Stop σ)
    (s : Except Stop σ) (pair : Sledge.Pair) : Except Stop σ := do
  iter (← s) (← env.entryAt pair.2)

theorem foldl_visit_error {σ : Type} (iter : σ → EnvEntry → Except Stop σ) (stop : Stop)
    (pairs : List Sledge.Pair) : pairs.foldl (visit env iter) (.error stop) = .error stop := by
  induction pairs with
  | nil => rfl
  | cons pair pairs ih => exact ih

/-- Pairs that lead to entries of their names. -/
theorem foldl_visit {pairs : List Sledge.Pair}
    (h : ∀ pair ∈ pairs, ∃ e ∈ env.entries, e.name = pair.1 ∧ env.entryAt pair.2 = .ok e) :
    ∃ order : List EnvEntry, order.map EnvEntry.name = pairs.map Prod.fst ∧
      (∀ e ∈ order, e ∈ env.entries) ∧
      ∀ (σ : Type) (iter : σ → EnvEntry → Except Stop σ) (s : σ),
        pairs.foldl (visit env iter) (.ok s) = order.foldlM iter s := by
  induction pairs with
  | nil => exact ⟨[], rfl, fun _ he => absurd he List.not_mem_nil, fun _ _ _ => rfl⟩
  | cons pair pairs ih =>
    obtain ⟨e, he, hname, hat⟩ := h pair (List.mem_cons_self ..)
    obtain ⟨order, hnames, hmem, hfold⟩ := ih fun p hp => h p (List.mem_cons_of_mem _ hp)
    refine ⟨e :: order, ?_, fun e' he' => ?_, fun σ iter s => ?_⟩
    · rw [List.map_cons, List.map_cons, hname, hnames]
    · rcases List.mem_cons.mp he' with rfl | he'
      · exact he
      · exact hmem e' he'
    · have hstep : visit env iter (.ok s) pair = iter s e := by
        simp only [visit, hat, bind, Except.bind]
      rw [List.foldl_cons, hstep, List.foldlM_cons]
      cases iter s e with
      | error stop => exact foldl_visit_error iter stop pairs
      | ok s' => exact hfold σ iter s'

/-- `sm_enum` meets every entry once, in the order of the buckets. -/
theorem Environment.Ok.enum (h : env.Ok) :
    ∃ order : List EnvEntry, order.Perm env.entries ∧
      ∀ (σ : Type) (iter : σ → EnvEntry → Except Stop σ) (s : σ),
        env.enum iter s = order.foldlM iter s := by
  have hpairs : ∀ pair ∈ Chains.entries env.map.buckets,
      ∃ e ∈ env.entries, e.name = pair.1 ∧ env.entryAt pair.2 = .ok e := by
    rintro ⟨name, a⟩ hp
    have hget := (Chains.mem_entries h.map.wellFormed).mp hp
    rw [h.places] at hget
    obtain ⟨i, hi, rfl⟩ := Option.map_eq_some_iff.mp hget
    obtain ⟨e, he, hname⟩ := Option.map_eq_some_iff.mp ((place_eq_some_iff h.nodup).mp hi)
    refine ⟨e, List.mem_of_getElem? he, hname, ?_⟩
    rw [Environment.entryAt, if_neg (Nat.succ_ne_zero i), Nat.add_sub_cancel, he]
  obtain ⟨order, hnames, hmem, hfold⟩ := foldl_visit hpairs
  have hnodup : (order.map EnvEntry.name).Nodup := by
    rw [hnames]
    exact Chains.keys_nodup h.map.wellFormed
  refine ⟨order, ?_, fun σ iter s => (Sledge.smEnum_eq ..).trans (hfold σ iter s)⟩
  rw [List.perm_ext_iff_of_nodup (List.Nodup.of_map _ hnodup) (List.Nodup.of_map _ h.nodup)]
  refine fun e => ⟨hmem e, fun he => ?_⟩
  have hin : e.name ∈ order.map EnvEntry.name := by
    have hsome : ∃ i, place env.entries e.name = some i := by
      rw [← Option.isSome_iff_exists, Option.isSome_iff_ne_none]
      exact fun hnone => place_eq_none_iff.mp hnone (List.mem_map.mpr ⟨e, he, rfl⟩)
    obtain ⟨i, hi⟩ := hsome
    rw [hnames]
    refine List.mem_map.mpr ⟨(e.name, i + 1), (Chains.mem_entries h.map.wellFormed).mpr ?_, rfl⟩
    rw [h.places, hi]
    rfl
  obtain ⟨e', he', hname⟩ := List.mem_map.mp hin
  rwa [← List.inj_on_of_nodup_map h.nodup (hmem e' he') he hname]

end Environment

/-- After any calls of `insert_symbol` on a new environment: the entries are those
    of the list the compiler and the collector are modelled on, the names are
    different, `lookup_global_symbol` answers as `compile_expr`'s lookup does, a
    call for a name of `MAX_SYMBOL_SIZE` bytes or more changes nothing, and
    `sm_enum` goes once to every entry. -/
theorem insertSymbols_refines (calls : List (List UInt8 × Word)) :
    ∃ env, insertSymbols calls newEnvironment = .ok (env, calls.map insertReturn) ∧
      env.entries = calls.foldl insertEntry [] ∧
      (env.entries.map EnvEntry.name).Nodup ∧
      (∀ (p : Prototypes) (junk : ℕ → ℕ → Arg) (name : List UInt8),
        env.lookupGlobalSymbol name =
          .ok (((p.ctx env.entries junk).lookup name).map (· + 1))) ∧
      ∃ order : List EnvEntry, order.Perm env.entries ∧
        ∀ (σ : Type) (iter : σ → EnvEntry → Except Stop σ) (s : σ),
          env.enum iter s = order.foldlM iter s := by
  obtain ⟨env, hrun, hok, hentries⟩ := newEnvironment_ok.inserts calls
  exact ⟨env, hrun, hentries, hok.nodup, fun _ _ name => hok.lookup name, hok.enum⟩

/-! ## Addresses in compiled code -/

section Addresses

variable {entries : List EnvEntry} {name : List UInt8} {cell : Word} {i : ℕ}
  {call : List UInt8 × Word}

/-- A name with a place keeps it, and only calls for the name change its entry. -/
theorem insertEntry_known (hn : (entries.map EnvEntry.name).Nodup)
    (hp : place entries name = some i) (he : entries[i]? = some ⟨cell, name⟩)
    (hshort : name.length < maxSymbolSize) :
    place (insertEntry entries call) name = some i ∧
      (insertEntry entries call)[i]? =
        some ⟨(if call.1 = name then some call.2 else none).getD cell, name⟩ := by
  obtain ⟨hi, -⟩ := List.getElem?_eq_some_iff.mp he
  by_cases hname : call.1 = name
  · have hent : insertEntry entries call = entries.set i ⟨call.2, name⟩ := by
      rw [insertEntry, hname, if_neg (Nat.not_le.mpr hshort), insertSymbol_known hn hp]
    rw [hent, if_pos hname]
    refine ⟨(place_congr (names_set ((place_eq_some_iff hn).mp hp))).trans hp, ?_⟩
    exact List.getElem?_set_self hi
  · rw [if_neg hname, Option.getD_none, insertEntry]
    split
    · exact ⟨hp, he⟩
    · cases hq : place entries call.1 with
      | some j =>
        have hij : j ≠ i := by
          rintro rfl
          have h₁ := (place_eq_some_iff hn).mp hq
          have h₂ := (place_eq_some_iff hn).mp hp
          rw [h₁, Option.some.injEq] at h₂
          exact hname h₂
        rw [insertSymbol_known hn hq]
        refine ⟨(place_congr (names_set ((place_eq_some_iff hn).mp hq))).trans hp, ?_⟩
        rw [List.getElem?_set_ne hij, he]
      | none =>
        rw [insertSymbol_new hq, place_append, hp, List.getElem?_append_left hi]
        exact ⟨Option.some_or, he⟩

/-- A call for a name gives it a place and an entry with the cell. -/
theorem insertEntry_self (hn : (entries.map EnvEntry.name).Nodup) (hname : call.1 = name)
    (hshort : name.length < maxSymbolSize) :
    ∃ i, place (insertEntry entries call) name = some i ∧
      (insertEntry entries call)[i]? = some ⟨call.2, name⟩ := by
  subst hname
  cases hp : place entries call.1 with
  | some i =>
    obtain ⟨e, he, hname⟩ := Option.map_eq_some_iff.mp ((place_eq_some_iff hn).mp hp)
    have hent : entries[i]? = some ⟨e.cell, call.1⟩ := by rw [he, ← hname]
    have hknown : _ ∧ (insertEntry entries call)[i]? = _ := insertEntry_known hn hp hent hshort
    rw [if_pos rfl] at hknown
    exact ⟨i, hknown⟩
  | none =>
    refine ⟨entries.length, ?_⟩
    rw [insertEntry, if_neg (Nat.not_le.mpr hshort), insertSymbol_new hp, place_append, hp,
      if_pos rfl]
    exact ⟨Option.none_or, List.getElem?_concat_length⟩

theorem foldl_insertEntry_known (calls : List (List UInt8 × Word))
    (hn : (entries.map EnvEntry.name).Nodup) (hp : place entries name = some i)
    (he : entries[i]? = some ⟨cell, name⟩) (hshort : name.length < maxSymbolSize) :
    place (calls.foldl insertEntry entries) name = some i ∧
      (calls.foldl insertEntry entries)[i]? =
        some ⟨(Chains.lastFor name calls).getD cell, name⟩ := by
  induction calls generalizing entries cell with
  | nil => exact ⟨hp, he⟩
  | cons call calls ih =>
    have hknown : place (insertEntry entries call) name = _ ∧ _ := insertEntry_known hn hp he hshort
    obtain ⟨hplace, hget⟩ := hknown
    obtain ⟨hplace', hget'⟩ := ih (nodup_insertEntry hn call) hplace hget
    refine ⟨hplace', ?_⟩
    rw [Chains.lastFor_cons, List.foldl_cons, hget']
    cases Chains.lastFor name calls with
    | none => rfl
    | some c => rfl

theorem foldl_insertEntry (calls : List (List UInt8 × Word))
    (hn : (entries.map EnvEntry.name).Nodup) (hshort : name.length < maxSymbolSize)
    (hc : Chains.lastFor name calls = some cell) :
    ∃ i, place (calls.foldl insertEntry entries) name = some i ∧
      (calls.foldl insertEntry entries)[i]? = some ⟨cell, name⟩ := by
  induction calls generalizing entries with
  | nil => exact absurd hc (by simp [Chains.lastFor])
  | cons call calls ih =>
    have hn' := nodup_insertEntry hn call
    rw [Chains.lastFor_cons] at hc
    cases hlast : Chains.lastFor name calls with
    | some c =>
      rw [hlast, Option.some_or] at hc
      exact ih hn' (hlast.trans hc)
    | none =>
      rw [hlast, Option.none_or] at hc
      by_cases hname : call.1 = name
      · rw [if_pos hname] at hc
        obtain ⟨i, hplace, hget⟩ := insertEntry_self hn hname hshort
        obtain ⟨hplace', hget'⟩ := foldl_insertEntry_known calls hn' hplace hget hshort
        rw [hlast, Option.getD_none, Option.some.inj hc] at hget'
        exact ⟨i, hplace', hget'⟩
      · exact absurd hc (by simp [hname])

end Addresses

/-- Once a name has been inserted, its address is the same after any further
    calls of `insert_symbol`, and at the address are the name and the cell of the
    last call for it. -/
theorem entry_stays (calls later : List (List UInt8 × Word)) (name : List UInt8)
    (hshort : name.length < maxSymbolSize) (hcalls : name ∈ calls.map Prod.fst) :
    ∃ env env' rets rets' e cell,
      insertSymbols calls newEnvironment = .ok (env, rets) ∧
      insertSymbols later env = .ok (env', rets') ∧
      env.lookupGlobalSymbol name = .ok (some e) ∧
      env'.lookupGlobalSymbol name = .ok (some e) ∧
      Chains.lastFor name (calls ++ later) = some cell ∧
      env'.entryAt e = .ok ⟨cell, name⟩ := by
  obtain ⟨env, hrun, hok, hentries⟩ := newEnvironment_ok.inserts calls
  obtain ⟨env', hrun', hok', hentries'⟩ := hok.inserts later
  obtain ⟨c, hc⟩ : ∃ c, Chains.lastFor name calls = some c := by
    rw [← Option.isSome_iff_exists, Option.isSome_iff_ne_none]
    exact fun hnone => (Chains.lastFor_eq_none_iff calls).mp hnone hcalls
  obtain ⟨i, hplace, hget⟩ := foldl_insertEntry calls newEnvironment_ok.nodup hshort hc
  rw [← hentries] at hplace hget
  obtain ⟨hplace', hget'⟩ := foldl_insertEntry_known later hok.nodup hplace hget hshort
  rw [← hentries'] at hplace' hget'
  refine ⟨env, env', _, _, i + 1, (Chains.lastFor name later).getD c, hrun, hrun', ?_, ?_, ?_, ?_⟩
  · rw [hok.lookup, hplace]
    rfl
  · rw [hok'.lookup, hplace']
    rfl
  · rw [Chains.lastFor_append, hc]
    cases Chains.lastFor name later with
    | none => rfl
    | some c => rfl
  · rw [Environment.entryAt, if_neg (Nat.succ_ne_zero i), Nat.add_sub_cancel, hget']

/-- A name defined again after another one. -/
theorem entry_stays_redefined :
    ∃ env env' rets rets' e cell,
      insertSymbols [([97], .null)] newEnvironment = .ok (env, rets) ∧
      insertSymbols [([98], .null), ([97], .cell 3)] env = .ok (env', rets') ∧
      env.lookupGlobalSymbol [97] = .ok (some e) ∧
      env'.lookupGlobalSymbol [97] = .ok (some e) ∧
      Chains.lastFor [97] ([([97], .null)] ++ [([98], .null), ([97], .cell 3)]) = some cell ∧
      env'.entryAt e = .ok ⟨cell, [97]⟩ :=
  entry_stays [([97], .null)] [([98], .null), ([97], .cell 3)] [97] (by decide) (by decide)

end Interim.Compiler
