/-!
# Special functions

Real functions that are computed here from elementary ones: `expm1`, `log1p`, the error functions
and the gamma functions. Each reduces its argument to a range in which a polynomial, a rational
function or a finite sum is accurate.
-/

namespace DreamBerd.Number.Special

def highWord (x : Float) : Nat := (x.toBits >>> 32).toNat

def absHighWord (x : Float) : Nat := highWord x % 0x80000000

def withHighWord (x : Float) (high : Nat) : Float :=
  Float.ofBits (UInt64.ofNat (high * Nat.pow 2 32 + x.toBits.toNat % Nat.pow 2 32))

def withoutLowWord (x : Float) : Float := withHighWord (Float.ofBits 0) (highWord x)

/-- `x * 2 ^ k` for a normal number and a normal result. -/
def scaled (x : Float) (k : Int) : Float := withHighWord x ((highWord x : Int) + k * 0x100000).toNat

def ln2High : Float := 6.93147180369123816490e-01
def ln2Low : Float := 1.90821492927058770002e-10

/-! ## `exp x - 1` -/

/-- The reduced argument of `expm1`: the multiple of `log 2` taken off, the rest and its error. -/
def expm1Reduce (x : Float) : Int × Float × Float :=
  let hx := absHighWord x
  if hx > 0x3fd62e42 then
    let (k, hi, lo) : Int × Float × Float :=
      if hx < 0x3ff0a2b2 then
        if x < 0.0 then (-1, x + ln2High, -ln2Low) else (1, x - ln2High, ln2Low)
      else
        let t := 1.44269504088896338700e+00 * x + (if x < 0.0 then -0.5 else 0.5)
        let k : Int := t.toInt64.toInt
        let t := Float.ofInt k
        (k, x - t * ln2High, t * ln2Low)
    let r := hi - lo
    (k, r, (hi - r) - lo)
  else (0, x, 0.0)

/-- `exp x - 1` for a finite number of moderate size. -/
def expm1Core (x : Float) : Float :=
  let (k, x, c) := expm1Reduce x
  let hfx := 0.5 * x
  let hxs := x * hfx
  let h2 := hxs * hxs
  let r1 := (1.0 + hxs * -3.33333333333331316428e-02)
    + h2 * (1.58730158725481460165e-03 + hxs * -7.93650757867487942473e-05)
    + (h2 * h2) * (4.00821782732936239552e-06 + hxs * -2.01099218183624371326e-07)
  let t := 3.0 - r1 * hfx
  let e := hxs * ((r1 - t) / (6.0 - x * t))
  if k == 0 then x - (x * e - hxs)
  else
    let e := (x * (e - c) - c) - hxs
    if k == -1 then 0.5 * (x - e) - 0.5
    else if k == 1 then
      if x < -0.25 then -2.0 * (e - (x + 0.5)) else 1.0 + 2.0 * (x - e)
    else if k ≤ -2 || k > 56 then scaled (1.0 - (e - x)) k - 1.0
    else if k < 20 then scaled ((1.0 - scaled 1.0 (-k)) - (e - x)) k
    else scaled ((x - (e + scaled 1.0 (-k))) + 1.0) k

def expm1 (x : Float) : Float :=
  if x.isNaN then x
  else if x == 0.0 then x
  else if x > 7.09782712893383973096e+02 then 1.0 / 0.0
  else if absHighWord x ≥ 0x4043687a && x < 0.0 then -1.0
  else if absHighWord x < 0x3c900000 then x
  else expm1Core x

/-! ## `log (1 + x)` -/

/-- The last step of `log1p`: `f` is the reduced argument, `k` the power of two taken off. -/
def log1pCore (f c : Float) (k : Int) (tiny : Bool) : Float :=
  let kf := Float.ofInt k
  let hfsq := 0.5 * f * f
  if tiny then
    if f == 0.0 then
      if k == 0 then 0.0 else kf * ln2High + (c + kf * ln2Low)
    else
      let r := hfsq * (1.0 - 0.66666666666666666 * f)
      if k == 0 then f - r else kf * ln2High - ((r - (kf * ln2Low + c)) - f)
  else
    let s := f / (2.0 + f)
    let z := s * s
    let z2 := z * z
    let z4 := z2 * z2
    let z6 := z4 * z2
    let r := z * 6.666666666666735130e-01
      + z2 * (3.999999999940941908e-01 + z * 2.857142874366239149e-01)
      + z4 * (2.222219843214978396e-01 + z * 1.818357216161805012e-01)
      + z6 * (1.531383769920937332e-01 + z * 1.479819860511658591e-01)
    if k == 0 then f - (hfsq - s * (hfsq + r))
    else kf * ln2High - ((hfsq - (s * (hfsq + r) + (kf * ln2Low + c))) - f)

/-- `log (1 + x)` for a finite `x > -1` that is not close to zero. -/
def log1pReduced (x : Float) : Float :=
  let (u, c, k) : Float × Float × Int :=
    if absHighWord x < 0x43400000 then
      let u := 1.0 + x
      let k : Int := (highWord u / 0x100000 : Nat) - 1023
      (u, (if k > 0 then 1.0 - (u - x) else x - (u - 1.0)) / u, k)
    else (x, 0.0, (highWord x / 0x100000 : Nat) - 1023)
  let hu := highWord u % 0x100000
  if hu < 0x6a09e then log1pCore (withHighWord u (hu + 0x3ff00000) - 1.0) c k (hu == 0)
  else
    log1pCore (withHighWord u (hu + 0x3fe00000) - 1.0) c (k + 1) ((0x100000 - hu) / 4 == 0)

def log1p (x : Float) : Float :=
  if x.isNaN || x == 0.0 then x
  else if x == -1.0 then -1.0 / 0.0
  else if x < -1.0 then 0.0 / 0.0
  else if x.isInf then x
  else
    let ax := absHighWord x
    if ax < 0x3c900000 then x
    else if ax < 0x3e200000 then x - x * x * 0.5
    else if (x > 0.0 && ax < 0x3fda827a) || (x < 0.0 && ax < 0x3fd2bec3) then log1pCore x 0.0 0 false
    else log1pReduced x

/-! ## Error functions -/

def erfPP : List Float :=
  [1.28379167095512558561e-01, -3.25042107247001499370e-01, -2.84817495755985104766e-02,
    -5.77027029648944159157e-03, -2.37630166566501626084e-05]

def erfQQ : List Float :=
  [1.0, 3.97917223959155352819e-01, 6.50222499887672944485e-02, 5.08130628187576562776e-03,
    1.32494738004321644526e-04, -3.96022827877536812320e-06]

def erfPA : List Float :=
  [-2.36211856075265944077e-03, 4.14856118683748331666e-01, -3.72207876035701323847e-01,
    3.18346619901161753674e-01, -1.10894694282396677476e-01, 3.54783043256182359371e-02,
    -2.16637559486879084300e-03]

def erfQA : List Float :=
  [1.0, 1.06420880400844228286e-01, 5.40397917702171048937e-01, 7.18286544141962662868e-02,
    1.26171219808761642112e-01, 1.36370839120290507362e-02, 1.19844998467991074170e-02]

def erfRA : List Float :=
  [-9.86494403484714822705e-03, -6.93858572707181764372e-01, -1.05586262253232909814e+01,
    -6.23753324503260060396e+01, -1.62396669462573470355e+02, -1.84605092906711035994e+02,
    -8.12874355063065934246e+01, -9.81432934416914548592e+00]

def erfSA : List Float :=
  [1.0, 1.96512716674392571292e+01, 1.37657754143519042600e+02, 4.34565877475229228821e+02,
    6.45387271733267880336e+02, 4.29008140027567833386e+02, 1.08635005541779435134e+02,
    6.57024977031928170135e+00, -6.04244152148580987438e-02]

def erfRB : List Float :=
  [-9.86494292470009928597e-03, -7.99283237680523006574e-01, -1.77579549177547519889e+01,
    -1.60636384855821916062e+02, -6.37566443368389627722e+02, -1.02509513161107724954e+03,
    -4.83519191608651397019e+02]

def erfSB : List Float :=
  [1.0, 3.03380607434824582924e+01, 3.25792512996573918826e+02, 1.53672958608443695994e+03,
    3.19985821950859553908e+03, 2.55305040643316442583e+03, 4.74528541206955367215e+02,
    -2.24409524465858183362e+01]

/-- Join coefficients to terms of first degree. -/
def linearTerms (x : Float) : List Float → List Float
  | a :: b :: rest => (a + x * b) :: linearTerms x rest
  | rest => rest

def weightedSum (acc : Float) : List Float → List Float → Float
  | w :: ws, t :: ts => weightedSum (acc + w * t) ws ts
  | _, _ => acc

/-- The value of a polynomial of degree at most nine, with the coefficients from the constant one
up, computed by terms of first degree. -/
def poly (x : Float) (cs : List Float) : Float :=
  let x2 := x * x
  let x4 := x2 * x2
  match linearTerms x cs with
  | [] => 0.0
  | t :: ts => weightedSum t [x2, x4, x4 * x2, x4 * x4] ts

def erx : Float := 8.45062911510467529297e-01

/-- `exp (-x ^ 2) * exp (r) / x` for `x` at least 1.25, which is the complement of the error
function. -/
def erfTail (ax : Float) (num den : List Float) : Float :=
  let s := 1.0 / (ax * ax)
  let r := poly s num
  let q := poly s den
  let z := withoutLowWord ax
  Float.exp (-z * z - 0.5625) * Float.exp ((z - ax) * (z + ax) + r / q) / ax

def erf (x : Float) : Float :=
  if x.isNaN then x
  else if x.isInf then (if x > 0.0 then 1.0 else -1.0)
  else
    let ix := absHighWord x
    if ix < 0x3feb0000 then
      if ix < 0x3e300000 then
        if ix < 0x00800000 then 0.0625 * (16.0 * x + 16.0 * 1.28379167095512586316e-01 * x)
        else x + 1.28379167095512586316e-01 * x
      else
        let z := x * x
        x + x * (poly z erfPP / poly z erfQQ)
    else if ix < 0x3ff40000 then
      let s := x.abs - 1.0
      let r := poly s erfPA / poly s erfQA
      if x ≥ 0.0 then erx + r else -erx - r
    else if ix ≥ 0x40180000 then (if x ≥ 0.0 then 1.0 else -1.0)
    else
      let ax := x.abs
      let r := if ix < 0x4006db6e then erfTail ax erfRA erfSA else erfTail ax erfRB erfSB
      if x ≥ 0.0 then 1.0 - r else r - 1.0

def erfc (x : Float) : Float :=
  if x.isNaN then x
  else if x.isInf then (if x > 0.0 then 0.0 else 2.0)
  else
    let ix := absHighWord x
    if ix < 0x3feb0000 then
      if ix < 0x3c700000 then 1.0 - x
      else
        let z := x * x
        let y := poly z erfPP / poly z erfQQ
        if x < 0.25 then 1.0 - (x + x * y) else 0.5 - (x * y + (x - 0.5))
    else if ix < 0x3ff40000 then
      let s := x.abs - 1.0
      let r := poly s erfPA / poly s erfQA
      if x ≥ 0.0 then (1.0 - erx) - r else 1.0 + (erx + r)
    else if ix < 0x403c0000 then
      let ax := x.abs
      if ix < 0x4006db6d then
        let r := erfTail ax erfRA erfSA
        if x > 0.0 then r else 2.0 - r
      else if x < -6.0 then 2.0
      else
        let r := erfTail ax erfRB erfSB
        if x > 0.0 then r else 2.0 - r
    else if x > 0.0 then 0.0 else 2.0

/-! ## Gamma functions -/

def pi : Float := 3.141592653589793

def lanczosShift : Float := 6.024680040776729583740234375

def lanczosNumerator : List Float :=
  [23531376880.41076, 42919803642.6491, 35711959237.35567, 17921034426.03721, 6039542586.352028,
    1439720407.3117216, 248874557.86205417, 31426415.585400194, 2876370.6289353725,
    186056.26539522348, 8071.672002365816, 210.82427775157936, 2.5066282746310002]

def lanczosDenominator : List Float :=
  [0.0, 39916800.0, 120543840.0, 150917976.0, 105258076.0, 45995730.0, 13339535.0, 2637558.0,
    357423.0, 32670.0, 1925.0, 66.0, 1.0]

/-- A rational function that approximates the gamma function, up to elementary factors. -/
def lanczosSum (x : Float) : Float :=
  if x < 5.0 then
    let eval := fun cs : List Float => cs.foldr (fun c acc => acc * x + c) 0.0
    eval lanczosNumerator / eval lanczosDenominator
  else
    let eval := fun cs : List Float => cs.foldl (fun acc c => acc / x + c) 0.0
    eval lanczosNumerator / eval lanczosDenominator

/-- The sine of `pi * x`, for `x` not negative and less than two. -/
def sinPiReduced (y : Float) : Float :=
  let n := (2.0 * y).round
  if n == 0.0 then Float.sin (pi * y)
  else if n == 1.0 then Float.cos (pi * (y - 0.5))
  else if n == 2.0 then Float.sin (pi * (1.0 - y))
  else if n == 3.0 then -Float.cos (pi * (y - 1.5))
  else Float.sin (pi * (y - 2.0))

def sinPi (x : Float) : Float := sinPiReduced (x - 2.0 * (x / 2.0).floor)

/-- The gamma function, for a number between -200 and 200 that is neither tiny nor an integer. -/
def gammaCore (x : Float) : Float :=
  let shift := lanczosShift - 0.5
  let ax := x.abs
  let y := ax + shift
  let z := if ax > shift then (y - ax) - shift else (y - shift) - ax
  let z := z * lanczosShift / y
  if x < 0.0 then
    let r := -pi / sinPi ax / ax * Float.exp y / lanczosSum ax
    let r := r - z * r
    if ax < 140.0 then r / Float.pow y (ax - 0.5)
    else
      let half := Float.pow y (ax / 2.0 - 0.25)
      r / half / half
  else
    let r := lanczosSum ax / Float.exp y
    let r := r + z * r
    if ax < 140.0 then r * Float.pow y (ax - 0.5)
    else
      let half := Float.pow y (ax / 2.0 - 0.25)
      r * half * half

/-- The logarithm of the absolute value of the gamma function, for a finite number that is neither
tiny nor a small integer. -/
def logGammaCore (x : Float) : Float :=
  let ax := x.abs
  let r := Float.log (lanczosSum ax) - lanczosShift
  let r := r + (ax - 0.5) * (Float.log (ax + lanczosShift - 0.5) - 1.0)
  if x < 0.0 then
    1.144729885849400174143427351353058711647 - Float.log (sinPi ax).abs - Float.log ax - r
  else r

end DreamBerd.Number.Special
