import Klone.Http.Noninterference

/-! # Isolation of virtual hosts

The limits of a request are taken when it is created and its URI is split before
the headers are read. Both use the default virtual host, so what is decided for a
request depends on the virtual host it selects alone exactly if that is the
default one and the split stays in its area.
-/
namespace Klone.Http

variable {site : Site} {fs fs' : FileSystem}

/-- What is decided for a request: its limits, the split of its URI, the supplier
cached with the split, and the supplier of the page. -/
structure Decisions where
  limits : Option Limits
  split : Option Split
  cached : Option Supplier
  served : Option Supplier
  deriving DecidableEq, Repr

def decisions (site : Site) (s : Server) (fs : FileSystem) (rq : Incoming) : Decisions :=
  let o := httpServe site s fs rq
  ⟨createLimits s, o.split, o.cached, o.served⟩

/-- The same server with other configurations for the virtual hosts that are not `v`. -/
structure OthersChanged (v : Vhost) (s s' : Server) : Prop where
  length : s'.others.length = s.others.length
  kept : ∀ i : ℕ, s.vhosts[i]? = some v → s'.vhosts[i]? = some v

/-- The decisions are a function of the configuration and the files of `v`. -/
def Isolated (site : Site) (s : Server) (rq : Incoming) (v : Vhost) : Prop :=
  ∀ s' fs fs', OthersChanged v s s' → httpGetVhost s' rq.header = some v → Agree v.Area fs fs' →
    decisions site s fs rq = decisions site s' fs' rq

theorem httpServe_main {s s' : Server} (hm : s.main = s'.main) {rq : Incoming}
    (hv : httpGetVhost s rq.header = httpGetVhost s' rq.header) :
    httpServe site s fs rq = httpServe site s' fs rq := by
  unfold httpServe parseUri
  rw [httpGetVhost_nil, httpGetVhost_nil, hm, hv]

theorem requestArea_eq {s : Server} {rq : Incoming} {v : Vhost}
    (hv : httpGetVhost s rq.header = some v) :
    requestArea s rq = v.Area := by
  funext path
  apply propext
  constructor
  · rintro ⟨w, hw, hp⟩
    obtain rfl := Option.some.inj (hv.symm.trans hw)
    exact hp
  · intro hp
    exact ⟨v, hv, hp⟩

theorem OthersChanged.refl (v : Vhost) (s : Server) : OthersChanged v s s := ⟨rfl, fun _ h => h⟩

/-- The server with another idle timeout in its main configuration. -/
def Server.withIdle (s : Server) (idle : Str) : Server :=
  ⟨{ s.main with idleTimeout := some idle }, s.others⟩

theorem othersChanged_withIdle {v : Vhost} {s : Server} (h : s.main ≠ v) (idle : Str) :
    OthersChanged v s (s.withIdle idle) := by
  refine ⟨rfl, fun i hi => ?_⟩
  cases i with
  | zero => exact absurd (Option.some.inj hi) h
  | succ i => exact hi

/-- The timeouts do not take part in the choice of the virtual host. -/
theorem httpGetVhost_withIdle {v : Vhost} {s : Server} (h : s.main ≠ v) {header : Header}
    (hv : httpGetVhost s header = some v) (idle : Str) :
    httpGetVhost (s.withIdle idle) header = some v := by
  unfold httpGetVhost at hv ⊢
  cases hh : headerGetFieldValue header (bytes "Host") with
  | none =>
    rw [hh] at hv
    exact absurd (Option.some.inj hv) h
  | some host =>
    rw [hh] at hv
    dsimp only at hv ⊢
    split at hv
    · cases hv
    next hlen =>
      rw [if_neg hlen]
      unfold vhostListGet Server.vhosts at hv ⊢
      have hhost : (s.withIdle idle).main.host = s.main.host := rfl
      rw [List.find?_cons] at hv ⊢
      rw [hhost]
      by_cases hm : s.main.host = hostOf host
      · simp [hm] at hv
        exact absurd hv h
      · simp only [hm, decide_false] at hv ⊢
        cases hf : s.others.find? fun w => w.host = hostOf host with
        | none =>
          rw [hf] at hv
          exact absurd (Option.some.inj hv) h
        | some w =>
          rw [hf] at hv
          have hf' : (s.withIdle idle).others.find? (fun w => w.host = hostOf host) = some w := hf
          rw [hf']
          exact hv

theorem createLimits_withIdle (s : Server) :
    ∃ idle, createLimits s ≠ createLimits (s.withIdle idle) := by
  by_cases h : (requestLoadConfig s.main).idleTimeout = 1
  · refine ⟨bytes "2", fun he => ?_⟩
    have hi := congrArg (Option.map Limits.idleTimeout) he
    have h₂ : (1 : ℤ) = 2 := h.symm.trans (Option.some.inj hi)
    cases h₂
  · refine ⟨bytes "1", fun he => ?_⟩
    have hi := congrArg (Option.map Limits.idleTimeout) he
    exact h (Option.some.inj hi)

theorem main_of_isolated {s : Server} {rq : Incoming} {v : Vhost}
    (hv : httpGetVhost s rq.header = some v) (h : Isolated site s rq v) : s.main = v := by
  by_contra hne
  obtain ⟨idle, hl⟩ := createLimits_withIdle s
  have hd := h (s.withIdle idle) (fun _ => none) (fun _ => none) (othersChanged_withIdle hne idle)
    (httpGetVhost_withIdle hne hv idle) (fun _ _ => rfl)
  exact hl (congrArg Decisions.limits hd)

theorem isolated_iff (site : Site) (s : Server) (rq : Incoming) (v : Vhost)
    (hv : httpGetVhost s rq.header = some v) :
    Isolated site s rq v ↔ s.main = v ∧ ProbesInside site s rq.uri v.Area := by
  constructor
  · intro h
    refine ⟨main_of_isolated hv h, ?_⟩
    apply probesInside_of_parseUri
    intro fs fs' ha
    have hd := h s fs fs' (OthersChanged.refl v s) hv ha
    exact parseUri_sup_of_httpServe (congrArg Decisions.split hd) (congrArg Decisions.cached hd)
  · rintro ⟨rfl, hp⟩ s' fs fs' hs hv' ha
    have hmain : s.main = s'.main := (Option.some.inj (hs.kept 0 rfl)).symm
    rw [← requestArea_eq hv] at hp ha
    have he : httpServe site s fs rq = httpServe site s' fs' rq :=
      (httpServe_agree hp ha).trans (httpServe_main hmain (hv.trans hv'.symm))
    have hl : createLimits s = createLimits s' := by
      unfold createLimits
      rw [httpGetVhost_nil, httpGetVhost_nil, hmain]
    unfold decisions
    rw [he, hl]

def shopVhost : Vhost := ⟨bytes "shop", bytes "/shop", [], none, none, none, none, none⟩

def twoHosts : Server := ⟨siteVhost [] (bytes "index.html"), [shopVhost]⟩

def shopRequest : Incoming := ⟨bytes "/", [⟨bytes "Host", bytes "shop:80"⟩], 0, false⟩

theorem isolated_iff_shop : httpGetVhost twoHosts shopRequest.header = some shopVhost ∧
    (Isolated filesSite twoHosts shopRequest shopVhost ↔
      twoHosts.main = shopVhost ∧ ProbesInside filesSite twoHosts shopRequest.uri shopVhost.Area) :=
  ⟨by decide, isolated_iff filesSite twoHosts shopRequest shopVhost (by decide)⟩

/-- A request for `shop` waits as long as the default virtual host says. -/
theorem shop_not_isolated : httpGetVhost twoHosts shopRequest.header = some shopVhost ∧
    ¬ Isolated filesSite twoHosts shopRequest shopVhost := by
  refine ⟨by decide, fun h => ?_⟩
  have hne : twoHosts.main ≠ shopVhost := by decide
  have hd := h (twoHosts.withIdle (bytes "60")) noFiles noFiles
    (othersChanged_withIdle hne _) (by decide)
    (fun _ _ => rfl)
  exact absurd (congrArg Decisions.limits hd) (by decide)

end Klone.Http
