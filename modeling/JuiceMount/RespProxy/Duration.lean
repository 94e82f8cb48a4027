import JuiceMount.Lib.Int64

/-! Go durations and clock readings, in nanoseconds. -/
namespace JuiceMount.RespProxy

/-- `time.Duration(n) * time.Second`. -/
def seconds (n : ℤ) : ℤ := int64 (n*10^9)

/-- `Duration.Milliseconds`, rounding towards zero. -/
def millis (d : ℤ) : ℤ := d.tdiv (10^6)

/-- `UnixMilli` of a clock reading. -/
def ms (t : ℤ) : ℤ := t/10^6

end JuiceMount.RespProxy
