import VhomeBridge.Lib.Run
import VhomeBridge.Zigbee.Commit
import VhomeBridge.Zigbee.Handshake
import VhomeBridge.Ble.Bind
import VhomeBridge.Ble.GenericClient
import VhomeBridge.Ble.GetState
import VhomeBridge.Ble.Join
import VhomeBridge.Ble.OnOff
import VhomeBridge.Lib.Chains
import VhomeBridge.Lib.Loop
import VhomeBridge.Lib.Slice
import VhomeBridge.Link.Access
import VhomeBridge.Link.Commands
import VhomeBridge.Link.Echo
import VhomeBridge.Link.Reload
import VhomeBridge.JsonUser
import VhomeBridge.Link.Overlap
import VhomeBridge.Mqtt.OnOff
import VhomeBridge.Ble.Acknowledge
import VhomeBridge.Ble.Subscribe
import VhomeBridge.Lib.Forest
import VhomeBridge.Lib.Tape
import VhomeBridge.Link.Cursor
import VhomeBridge.Link.Handled
import VhomeBridge.Link.Malformed
import VhomeBridge.Mqtt.Queue
import VhomeBridge.Button
import VhomeBridge.Lib.Lines
import VhomeBridge.Zigbee.Lines
import VhomeBridge.Zigbee.Delivery
import VhomeBridge.Zigbee.Fields
import VhomeBridge.Ble.Widths
import VhomeBridge.JsonFields
import VhomeBridge.Web.Form
import VhomeBridge.Ble.Slots
import VhomeBridge.Mqtt.Deliver
import VhomeBridge.Debounce
import VhomeBridge.Lib.Remainder
import VhomeBridge.SmartConfig
import VhomeBridge.Web.Decode
import VhomeBridge.Web.Parse
import VhomeBridge.Zigbee.Remainder
import VhomeBridge.WebSocket.Events
import VhomeBridge.WebSocket.Broadcast
import VhomeBridge.WebSocket.Bounds
import VhomeBridge.Link.MapStore
import VhomeBridge.Link.Settle
import VhomeBridge.Main.Bridge
import VhomeBridge.Main.Faults
import VhomeBridge.Main.Pairing
import VhomeBridge.Main.Stored
import VhomeBridge.Main.Uplink
import VhomeBridge.Mqtt.Serial
import VhomeBridge.Mqtt.Topics
import VhomeBridge.Ota
