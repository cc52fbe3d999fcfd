import Tinyco.ServerConfig

/-! Which configurations are accepted, and that the services they ask for are those that run. -/

namespace Tinyco

section Listeners

variable {env : ListenEnv} {proto : Bytes} {sec config : Json} {listeners out : List Listener}
  {is : List Nat}

theorem listenItemParse_isSome_iff (env : ListenEnv) (text : Bytes) :
    (∃ ip port, listenItemParse env text = some (ip, port)) ↔ (split text 58).length = 2 := by
  constructor
  · rintro ⟨ip, port, h⟩
    simp only [listenItemParse] at h
    split at h
    · next he => simp [he]
    · cases h
  · intro h
    obtain ⟨eth, port, he⟩ := List.length_eq_two.mp h
    exact ⟨_, _, by simp only [listenItemParse, he]; rfl⟩

theorem initEntries_spec (sec : Json) (hproto : proto = bytes "tcp" ∨ proto = bytes "udp")
    (hlisten : ∀ l, env.listenOk l = true) (listeners : List Listener) (is : List Nat) :
    (∀ out, initEntries env proto sec listeners is = .ok (some out) →
      (∀ i ∈ is, ∃ text, listenConfig sec i = .ok text ∧ (split text 58).length = 2) ∧
      ∃ new, out = listeners ++ new ∧ new.map Listener.entry = is.map (proto, ·) ∧
        ∀ l ∈ new, l.proto = bytes "tcp") ∧
    ((∀ i ∈ is, ∃ text, listenConfig sec i = .ok text ∧ (split text 58).length = 2) →
      ∃ out, initEntries env proto sec listeners is = .ok (some out)) := by
  induction is generalizing listeners with
  | nil =>
    refine ⟨fun out h => ⟨by simp, [], ?_, rfl, by simp⟩, fun _ => ⟨listeners, rfl⟩⟩
    simpa [initEntries, eq_comm] using h
  | cons i is ih =>
    have hcons (ip port : Nat) (text : Bytes) (ht : listenConfig sec i = .ok text)
        (hp : listenItemParse env text = some (ip, port)) :
        ∃ l : Listener, l.entry = (proto, i) ∧ l.proto = bytes "tcp" ∧
          initEntries env proto sec listeners (i :: is) =
            initEntries env proto sec (listeners ++ [l]) is := by
      rcases hproto with rfl | rfl
      · exact ⟨tcpListener ip port (bytes "tcp", i), rfl, rfl, by
          simp [initEntries, ht, hp, hlisten, bind, Except.bind]⟩
      · exact ⟨udpListener ip port (bytes "udp", i), rfl, rfl, by
          simp [initEntries, ht, hp, hlisten, bind, Except.bind,
            show bytes "udp" ≠ bytes "tcp" by decide]⟩
    constructor
    · intro out h
      cases ht : listenConfig sec i with
      | error e => simp [initEntries, ht, bind, Except.bind] at h
      | ok text =>
        cases hp : listenItemParse env text with
        | none => simp [initEntries, ht, hp, bind, Except.bind, pure, Except.pure] at h
        | some a =>
          obtain ⟨l, hentry, hl, he⟩ := hcons a.1 a.2 text ht hp
          obtain ⟨hall, new, rfl, hnew, hprotos⟩ := (ih (listeners ++ [l])).1 out (he ▸ h)
          refine ⟨fun j hj => ?_, l :: new, by simp, by simp [hentry, hnew], ?_⟩
          · rcases List.mem_cons.mp hj with rfl | hj
            · exact ⟨text, ht, (listenItemParse_isSome_iff env text).mp ⟨a.1, a.2, hp⟩⟩
            · exact hall j hj
          · intro l' hl'
            rcases List.mem_cons.mp hl' with rfl | hl'
            · exact hl
            · exact hprotos l' hl'
    · intro hall
      obtain ⟨text, ht, hlen⟩ := hall i List.mem_cons_self
      obtain ⟨ip, port, hp⟩ := (listenItemParse_isSome_iff env text).mpr hlen
      obtain ⟨l, -, -, he⟩ := hcons ip port text ht hp
      rw [he]
      exact (ih _).2 fun j hj => hall j (List.mem_cons_of_mem i hj)

theorem get_cases (hsec : config.get proto = .ok sec) :
    (config = .null ∧ sec = .null) ∨
      ∃ members, config = .object members ∧ sec = (members.lookup proto).getD .null := by
  cases config with
  | null => exact .inl ⟨rfl, (Except.ok.inj hsec).symm⟩
  | object members => exact .inr ⟨members, rfl, (Except.ok.inj hsec).symm⟩
  | scalar text => cases hsec
  | array items => cases hsec

theorem initListener_eq (hsec : config.get proto = .ok sec) (listeners : List Listener) :
    initListener env proto config listeners =
      initEntries env proto sec listeners (List.range sec.size) := by
  rcases get_cases hsec with ⟨rfl, rfl⟩ | ⟨members, rfl, rfl⟩
  · rfl
  · cases h : members.lookup proto with
    | none => simp [initListener, Json.isMember, h, Json.size, initEntries, bind, Except.bind]; rfl
    | some v => simp [initListener, Json.isMember, Json.get, h, bind, Except.bind]

theorem sectionListens_iff (hsec : config.get proto = .ok sec) :
    config.SectionListens proto ↔ ∀ i ∈ List.range sec.size,
      ∃ text, listenConfig sec i = .ok text ∧ (split text 58).length = 2 := by
  constructor
  · intro h i hi
    exact h sec hsec i (List.mem_range.mp hi)
  · intro h sec' hsec' i hi
    obtain rfl := Except.ok.inj (hsec.symm.trans hsec')
    exact h i (List.mem_range.mpr hi)

theorem length_entries (hsec : config.get proto = .ok sec) (h : config.SectionListens proto) :
    (config.entries proto).length = sec.size := by
  rcases get_cases hsec with ⟨rfl, rfl⟩ | ⟨members, rfl, rfl⟩
  · rfl
  · cases hv : members.lookup proto with
    | none => simp [Json.entries, hv, Json.size]
    | some v =>
      cases v with
      | object ms =>
        cases ms with
        | nil => simp [Json.entries, hv, Json.size]
        | cons m ms =>
          obtain ⟨text, ht, -⟩ := h _ hsec 0 (by simp [hv, Json.size])
          simp [listenConfig, hv, Json.item, bind, Except.bind] at ht
      | _ => simp [Json.entries, hv, Json.size]

/-- What `InitSrv` has to find to succeed, and the listeners it then makes. -/
theorem initSrv_spec (hlisten : ∀ l, env.listenOk l = true) {tcp udp : Json}
    (htcp : config.get (bytes "tcp") = .ok tcp) (hudp : config.get (bytes "udp") = .ok udp) :
    (∀ out, initSrv env config = .ok (some out) →
      (config.SectionListens (bytes "tcp") ∧ config.SectionListens (bytes "udp")) ∧
      out.map Listener.entry = (List.range tcp.size).map (bytes "tcp", ·) ++
        (List.range udp.size).map (bytes "udp", ·) ∧ ∀ l ∈ out, l.proto = bytes "tcp") ∧
    (config.SectionListens (bytes "tcp") → config.SectionListens (bytes "udp") →
      ∃ out, initSrv env config = .ok (some out)) := by
  have hspec (p : Bytes) (hp : p = bytes "tcp" ∨ p = bytes "udp") (sec : Json)
      (ls : List Listener) := initEntries_spec sec hp hlisten ls (List.range sec.size)
  rw [sectionListens_iff htcp, sectionListens_iff hudp]
  constructor
  · intro out h
    rw [initSrv, initListener_eq htcp] at h
    cases hr : initEntries env (bytes "tcp") tcp [] (List.range tcp.size) with
    | error e => simp [hr, bind, Except.bind] at h
    | ok r =>
      cases r with
      | none => simp [hr, bind, Except.bind, pure, Except.pure] at h
      | some ls =>
        obtain ⟨htall, new, rfl, hentry, hproto⟩ := (hspec _ (.inl rfl) tcp []).1 ls hr
        have hu : initEntries env (bytes "udp") udp ls (List.range udp.size) =
            .ok (some out) := by
          simpa [hr, bind, Except.bind, initListener_eq hudp] using h
        obtain ⟨huall, new', rfl, hentry', hproto'⟩ := (hspec _ (.inr rfl) udp _).1 out hu
        refine ⟨⟨htall, huall⟩, by simp [hentry, hentry'], fun l hl => ?_⟩
        rcases List.mem_append.mp hl with hl | hl
        · exact hproto l hl
        · exact hproto' l hl
  · intro ht hu
    obtain ⟨ls, hr⟩ := (hspec _ (.inl rfl) tcp []).2 ht
    obtain ⟨out, hr'⟩ := (hspec _ (.inr rfl) udp ls).2 hu
    refine ⟨out, ?_⟩
    rw [initSrv, initListener_eq htcp, hr]
    exact (initListener_eq hudp ls).trans hr'

theorem workerRun_of_proto {order : List Listener} (h : ∀ l ∈ order, l.proto = bytes "tcp") :
    workerRun order = order.map fun l => ⟨.tcpSrvWork, l⟩ := by
  rw [← List.filterMap_eq_map]
  exact List.filterMap_congr fun l hl => if_pos (h l hl)

theorem served_iff {tcp udp : Json} (htcp : config.get (bytes "tcp") = .ok tcp)
    (hudp : config.get (bytes "udp") = .ok udp) (hlt : config.SectionListens (bytes "tcp"))
    (hlu : config.SectionListens (bytes "udp")) {order : List Listener} (hperm : order.Perm listeners)
    (hentry : listeners.map Listener.entry = (List.range tcp.size).map (bytes "tcp", ·) ++
      (List.range udp.size).map (bytes "udp", ·))
    (hproto : ∀ l ∈ listeners, l.proto = bytes "tcp") :
    ((workerRun order).map fun w => (w.kind, w.listener.entry)).Perm config.wanted ↔
      config.entries (bytes "udp") = [] := by
  have hrun : ((workerRun order).map fun w => (w.kind, w.listener.entry)).Perm
      (((List.range tcp.size).map fun i => (SrvKind.tcpSrvWork, bytes "tcp", i)) ++
        (List.range udp.size).map fun i => (SrvKind.tcpSrvWork, bytes "udp", i)) := by
    rw [workerRun_of_proto fun l hl => hproto l (hperm.subset hl), List.map_map]
    refine (hperm.map _).trans (.of_eq ?_)
    have he := congrArg (List.map (Prod.mk SrvKind.tcpSrvWork)) hentry
    simpa [Function.comp_def] using he
  have hlen := length_entries hudp hlu
  rw [Json.wanted, length_entries htcp hlt, hlen]
  constructor
  · intro h
    by_contra hne
    have hpos : 0 < udp.size := hlen ▸ List.length_pos_iff.mpr hne
    have hmem := (hrun.symm.trans h).symm.subset (List.mem_append_right _
      (List.mem_map.mpr ⟨0, List.mem_range.mpr hpos, rfl⟩))
    simp at hmem
  · intro hnil
    have h0 : udp.size = 0 := by simpa [hnil] using hlen.symm
    simpa [h0] using hrun

end Listeners

/-- The document is a value that has members, if only none. -/
def Json.Keyed : Json → Prop
  | .null | .object _ => True
  | _ => False

theorem Json.Keyed.isMember {config : Json} (h : config.Keyed) (key : Bytes) :
    config.isMember key = .ok (config.hasMember key) := by
  cases config with
  | null | object _ => rfl
  | scalar _ | array _ => exact h.elim

theorem Json.Keyed.exists_get {config : Json} (h : config.Keyed) (key : Bytes) :
    ∃ sec, config.get key = .ok sec := by
  cases config with
  | null | object _ => exact ⟨_, rfl⟩
  | scalar _ | array _ => exact h.elim

section Parse

variable {parse : Bytes → Option Json} {data : Bytes} {config : Json}

theorem parseConfig_of_keyed (hparse : parse data = some config) (h : config.Keyed) :
    parseConfig parse data = .ok (config.hasMember (bytes "udp") ||
      !config.hasMember (bytes "tcp") || config.hasMember (bytes "http")) := by
  simp only [parseConfig, hparse, h.isMember, bind, Except.bind]
  cases config.hasMember (bytes "udp") <;> cases config.hasMember (bytes "tcp") <;>
    cases config.hasMember (bytes "http") <;> rfl

theorem parseConfig_of_not_keyed (hparse : parse data = some config) (h : ¬ config.Keyed) :
    parseConfig parse data = .error .logicError ∧ ∀ key, config.hasMember key = false := by
  cases config with
  | null | object _ => exact absurd trivial h
  | scalar _ | array _ => exact ⟨by rw [parseConfig, hparse]; rfl, fun _ => rfl⟩

theorem accepted_iff (hparse : parse data = some config) (h : config.Keyed) :
    (parseConfig parse data = .ok true ↔ ∃ config, parse data = some config ∧
      (config.hasMember (bytes "udp") ∨ config.hasMember (bytes "tcp") ∨
        config.hasMember (bytes "http"))) ↔
    config.hasMember (bytes "udp") ∨ config.hasMember (bytes "http") := by
  rw [parseConfig_of_keyed hparse h]
  simp only [hparse, Option.some.injEq, exists_eq_left', Except.ok.injEq]
  cases config.hasMember (bytes "udp") <;> cases config.hasMember (bytes "tcp") <;>
    cases config.hasMember (bytes "http") <;> simp

end Parse

/-- A configuration is honoured exactly if it does not parse, has no members to ask for, or has
a member "udp" or "http" and no entry for UDP unless `InitSrv` fails on some entry. -/
theorem config_honoured_iff (parse : Bytes → Option Json) {env : ListenEnv}
    (hlisten : ∀ l, env.listenOk l = true) (configData : Bytes) :
    ConfigHonoured parse env configData ↔
      ∀ config, parse configData = some config → config.Keyed →
        (config.hasMember (bytes "udp") ∨ config.hasMember (bytes "http")) ∧
        (config.SectionListens (bytes "tcp") → config.SectionListens (bytes "udp") →
          config.entries (bytes "udp") = []) := by
  constructor
  · intro h config hparse hkeyed
    have hmember := (accepted_iff hparse hkeyed).mp h.accepted
    obtain ⟨tcp, htcp⟩ := hkeyed.exists_get (bytes "tcp")
    obtain ⟨udp, hudp⟩ := hkeyed.exists_get (bytes "udp")
    refine ⟨hmember, fun hlt hlu => ?_⟩
    obtain ⟨out, hout⟩ := (initSrv_spec hlisten htcp hudp).2 hlt hlu
    obtain ⟨-, hentry, hproto⟩ := (initSrv_spec hlisten htcp hudp).1 out hout
    have hok : parseConfig parse configData = .ok true := by
      rw [parseConfig_of_keyed hparse hkeyed]
      rcases hmember with hm | hm <;> simp [hm]
    exact (served_iff htcp hudp hlt hlu (.refl out) hentry hproto).mp
      (h.served config out out hparse hok hout (.refl out))
  · intro h
    cases hparse : parse configData with
    | none => exact ⟨by simp [parseConfig, hparse], fun _ _ _ hc => by simp [hparse] at hc⟩
    | some config =>
      by_cases hkeyed : config.Keyed
      · obtain ⟨hmember, hnoudp⟩ := h config hparse hkeyed
        refine ⟨(accepted_iff hparse hkeyed).mpr hmember, fun c ls order hc _ hls hperm => ?_⟩
        obtain rfl := Option.some.inj (hparse.symm.trans hc)
        obtain ⟨tcp, htcp⟩ := hkeyed.exists_get (bytes "tcp")
        obtain ⟨udp, hudp⟩ := hkeyed.exists_get (bytes "udp")
        obtain ⟨⟨hlt, hlu⟩, hentry, hproto⟩ := (initSrv_spec hlisten htcp hudp).1 ls hls
        exact (served_iff htcp hudp hlt hlu hperm hentry hproto).mpr (hnoudp hlt hlu)
      · obtain ⟨hthrow, hnone⟩ := parseConfig_of_not_keyed hparse hkeyed
        refine ⟨by simp [hthrow, hparse, hnone], fun c ls order hc hok => ?_⟩
        rw [hthrow] at hok
        cases hok

def listenEntry (text : String) : Json := .object [(bytes "listen", .scalar (bytes text))]

theorem http_and_tcp_honoured :
    ConfigHonoured (fun _ => some (.object [(bytes "http", .array []),
      (bytes "tcp", .array [listenEntry "eth1:8080"])])) ⟨fun _ => 0, fun _ => true⟩ [] := by
  refine (config_honoured_iff _ (fun _ => rfl) _).mpr fun config hconfig _ => ?_
  obtain rfl := Option.some.inj hconfig
  exact ⟨.inr rfl, fun _ _ => rfl⟩

/-- A document that has only "tcp" is refused, one without any member is accepted, and the
UDP entry of the configuration that comes with the source is served as TCP. -/
theorem configurations_not_honoured :
    parseConfig (fun _ => some (.object [(bytes "tcp", .array [listenEntry "eth1:8080"])])) [] =
      .ok false ∧
    parseConfig (fun _ => some (.object [])) [] = .ok true ∧
    (∃ listeners, initSrv ⟨fun _ => 0, fun _ => true⟩
        (.object [(bytes "udp", .array [listenEntry "eth1:12345"]),
          (bytes "tcp", .array [listenEntry "eth1:8080"])]) = .ok (some listeners) ∧
      (workerRun listeners).map (fun w => (w.kind, w.listener.entry)) =
        [(.tcpSrvWork, bytes "tcp", 0), (.tcpSrvWork, bytes "udp", 0)]) ∧
    ¬ ∀ parse env configData, (∀ l, env.listenOk l = true) →
      ConfigHonoured parse env configData := by
  refine ⟨rfl, rfl, ⟨_, rfl, rfl⟩, fun hall => ?_⟩
  have h := (hall (fun _ => some (.object [])) ⟨fun _ => 0, fun _ => true⟩ [] fun _ => rfl).accepted
  obtain ⟨config, hconfig, hmember⟩ := h.mp rfl
  obtain rfl := Option.some.inj hconfig
  exact absurd hmember (by decide)

end Tinyco
