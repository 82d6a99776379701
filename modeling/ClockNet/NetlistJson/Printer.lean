import ClockNet.Json.Printer
import ClockNet.NetlistJson.Export

/-! The text of a JSON netlist. -/

namespace ClockNet.NetlistJson

def print (d : Design) : String := (exportDesign d).pretty

end ClockNet.NetlistJson
